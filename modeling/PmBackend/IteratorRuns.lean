import Mathlib.Logic.Function.Basic
import PmBackend.RecoveryScan
import PmBackend.Shared.SafeRuns

set_option autoImplicit false

namespace PmBackend

open ByteMemory Interleaving SafeRuns

inductive IterCall where
  | iterOpen (region : Region)
  | iterGet (k : Nat)
  | iterNext (k : Nat)
  | iterClose (k : Nat)

-- the iterators of a client, numbered in the order of their opens; `none` is NULL or closed
structure Iteration where
  store : Store
  iters : Nat → Option PmbIter
  opened : Nat
  -- what the iterators had to deliver after each open and each next: the number of the iterator, the id
  delivered : List (Nat × Nat)

def presented (k : Nat) (iter : Option PmbIter) : List (Nat × Nat) :=
  if pmbIterValid iter then [(k, pmbIterPos iter)] else []

def iterStep (sys : Iteration) : IterCall → Iteration
  | .iterOpen region =>
    let done := pmbIterOpen sys.store region
    { store := done.1
      iters := Function.update sys.iters sys.opened done.2
      opened := sys.opened + 1
      delivered := sys.delivered ++ presented sys.opened done.2 }
  -- `pmb_iter_get` only reads
  | .iterGet _ => sys
  | .iterNext k =>
    let done := pmbIterNext sys.store (sys.iters k)
    { sys with
      store := done.1
      iters := Function.update sys.iters k done.2.1
      delivered := sys.delivered ++ presented k done.2.1 }
  | .iterClose k =>
    let done := pmbIterClose sys.store (sys.iters k)
    { sys with store := done.1, iters := Function.update sys.iters k none }

def Iteration.start (s : Store) : Iteration := ⟨s, fun _ => none, 0, []⟩

def Store.regionIds (s : Store) (region : Region) : Finset Nat :=
  match s.regionObjs region with
  | none => ∅
  | some list => RangeList.elements list.ranges

-- no id is delivered twice, and every open iterator comes to its end
structure IterationsEnd (h : Handle) (objs : Region → Finset Nat) (sys : Iteration) : Prop where
  once : (sys.delivered.map Prod.snd).Nodup
  recovered : ∀ d ∈ sys.delivered, ∃ region, d.2 ∈ objs region
  -- among the calls of the other iterators
  rounds : ∀ k iter, sys.iters k = some iter →
    (sys.delivered.filter fun d => d.1 = k).length ≤ (objs iter.region).card
  -- by itself from here on
  loops : ∀ k iter, sys.iters k = some iter → ∃ visits,
    iterLoop h ((objs iter.region).card + 1) sys.store (some iter) = some visits ∧
      visits.length ≤ (objs iter.region).card
  failed : ∀ k iter, sys.iters k = some iter → (pmbIterNext sys.store (some iter)).2.2 ≠ .ok →
    pmbIterValid (pmbIterNext sys.store (some iter)).2.1 = false

-- an iterator is closed after the other iterators of its region have come to their ends
def CloseSafe (sys : Iteration) : IterCall → Prop
  | .iterClose k => ∀ iter, sys.iters k = some iter → ∀ j ≠ k, ∀ other, sys.iters j = some other →
      other.region = iter.region → pmbIterValid (some other) = false
  | _ => True

-- the ids in the object lists of the two regions
structure ObjectSets (objs : Region → Finset Nat) : Prop where
  positive : ∀ region, ∀ id ∈ objs region, id ≠ 0
  room : ∀ region, ∀ id ∈ objs region, id + 1 < 2 ^ 64
  apart : ∀ region region' id, id ∈ objs region → id ∈ objs region' → region = region'

structure Iterating (objs remaining : Region → Finset Nat) (sys : Iteration) : Prop where
  lists : ∀ region, ListOf (sys.store.regionObjs region) (remaining region) ∨
    (sys.store.regionObjs region = none ∧
      ∀ k iter, sys.iters k = some iter → iter.region = region → iter.vectorPos = 0)
  subset : ∀ region, remaining region ⊆ objs region
  once : (sys.delivered.map Prod.snd).Nodup
  numbered : ∀ d ∈ sys.delivered, d.1 < sys.opened
  known : ∀ k iter, sys.iters k = some iter → k < sys.opened
  recovered : ∀ d ∈ sys.delivered, ∃ region, d.2 ∈ objs region ∧ (∀ id ∈ remaining region, d.2 < id) ∧
    ∀ iter, sys.iters d.1 = some iter → iter.region = region
  current : ∀ k iter, sys.iters k = some iter → iter.vectorPos = 0 ∨ (k, iter.vectorPos) ∈ sys.delivered

section Steps

variable {objs remaining : Region → Finset Nat} {sys sys' : Iteration}

theorem regionObjs_set_other (s : Store) {region region' : Region} (list : Option Caslist)
    (other : region' ≠ region) : (s.setRegionObjs region list).regionObjs region' = s.regionObjs region' := by
  cases region <;> cases region' <;> first | rfl | exact absurd rfl other

theorem setRegionObjs_same (s : Store) (region : Region) : s.setRegionObjs region (s.regionObjs region) = s := by
  cases region <;> rfl

theorem Iterating.idle (inv : Iterating objs remaining sys) {k : Nat} (ptr : Option PmbIter)
    (store : sys'.store = sys.store) (iters : sys'.iters = Function.update sys.iters k ptr)
    (opened : sys.opened ≤ sys'.opened) (delivered : sys'.delivered = sys.delivered)
    (invalid : ∀ iter, ptr = some iter → iter.vectorPos = 0 ∧
      ∃ before, sys.iters k = some before ∧ before.region = iter.region) :
    Iterating objs remaining sys' := by
  refine ⟨fun region => ?_, inv.subset, ?_, fun d member => ?_, fun j iter held => ?_,
    fun d member => ?_, fun j iter held => ?_⟩
  · rw [store]
    refine (inv.lists region).imp id fun closed => ⟨closed.1, fun j iter held same => ?_⟩
    rw [iters] at held
    by_cases this : j = k
    · subst this
      rw [Function.update_self] at held
      exact (invalid iter held).1
    · rw [Function.update_of_ne this] at held
      exact closed.2 j iter held same
  · rw [delivered]
    exact inv.once
  · rw [delivered] at member
    exact lt_of_lt_of_le (inv.numbered d member) opened
  · rw [iters] at held
    refine lt_of_lt_of_le ?_ opened
    by_cases this : j = k
    · subst this
      rw [Function.update_self] at held
      obtain ⟨-, before, held', -⟩ := invalid iter held
      exact inv.known j before held'
    · rw [Function.update_of_ne this] at held
      exact inv.known j iter held
  · rw [delivered] at member
    obtain ⟨region, object, later, owner⟩ := inv.recovered d member
    refine ⟨region, object, later, fun iter held => ?_⟩
    rw [iters] at held
    by_cases this : d.1 = k
    · rw [this, Function.update_self] at held
      obtain ⟨-, before, held', same⟩ := invalid iter held
      rw [← same]
      exact owner before (by rw [this]; exact held')
    · rw [Function.update_of_ne this] at held
      exact owner iter held
  · rw [iters] at held
    rw [delivered]
    by_cases this : j = k
    · subst this
      rw [Function.update_self] at held
      exact Or.inl (invalid iter held).1
    · rw [Function.update_of_ne this] at held
      exact inv.current j iter held

theorem Iterating.deliver (sets : ObjectSets objs) (inv : Iterating objs remaining sys) {k least : Nat}
    {region : Region} {list : Option Caslist} (member : least ∈ remaining region)
    (lower : ∀ id ∈ remaining region, least ≤ id) (rest : ListOf list ((remaining region).erase least))
    (held : ListOf (sys.store.regionObjs region) (remaining region))
    (store : sys'.store = sys.store.setRegionObjs region list)
    (iters : sys'.iters = Function.update sys.iters k (some ⟨region, least⟩))
    (opened : sys.opened ≤ sys'.opened) (numbered : k < sys'.opened)
    (delivered : sys'.delivered = sys.delivered ++ [(k, least)])
    (owner : ∀ d ∈ sys.delivered, d.1 = k → ∃ before, sys.iters k = some before ∧ before.region = region) :
    Iterating objs (Function.update remaining region ((remaining region).erase least)) sys' := by
  have object := inv.subset region member
  have fresh : ∀ d ∈ sys.delivered, d.2 ≠ least := by
    rintro d past rfl
    obtain ⟨region', object', later, -⟩ := inv.recovered d past
    have same := sets.apart _ _ _ object' object
    subst same
    exact lt_irrefl _ (later _ member)
  have erased : ∀ region', Function.update remaining region ((remaining region).erase least) region' ⊆
      remaining region' := by
    intro region'
    by_cases same : region' = region
    · subst same
      rw [Function.update_self]
      exact Finset.erase_subset _ _
    · rw [Function.update_of_ne same]
  refine ⟨fun region' => ?_, fun region' => (erased region').trans (inv.subset region'), ?_,
    fun d past => ?_, fun j iter holds => ?_, fun d past => ?_, fun j iter holds => ?_⟩
  · rw [store]
    by_cases same : region' = region
    · subst same
      rw [Function.update_self, regionObjs_setRegionObjs]
      exact Or.inl rest
    · rw [Function.update_of_ne same, regionObjs_set_other _ _ same]
      refine (inv.lists region').imp id fun closed => ⟨closed.1, fun j iter holds its => ?_⟩
      rw [iters] at holds
      by_cases this : j = k
      · subst this
        rw [Function.update_self] at holds
        cases holds
        exact absurd its.symm same
      · rw [Function.update_of_ne this] at holds
        exact closed.2 j iter holds its
  · rw [delivered, List.map_append, List.nodup_append]
    refine ⟨inv.once, by simp, ?_⟩
    intro id past id' new same
    simp only [List.map_cons, List.map_nil, List.mem_singleton] at new
    obtain ⟨d, inside, rfl⟩ := List.mem_map.mp past
    exact fresh d inside (same.trans new)
  · rw [delivered, List.mem_append, List.mem_singleton] at past
    rcases past with past | rfl
    · exact lt_of_lt_of_le (inv.numbered d past) opened
    · exact numbered
  · rw [iters] at holds
    by_cases this : j = k
    · subst this
      exact numbered
    · rw [Function.update_of_ne this] at holds
      exact lt_of_lt_of_le (inv.known j iter holds) opened
  · rw [delivered, List.mem_append, List.mem_singleton] at past
    rcases past with past | rfl
    · obtain ⟨region', object', later, owned⟩ := inv.recovered d past
      refine ⟨region', object', fun id inside => later id (erased region' inside), fun iter holds => ?_⟩
      rw [iters] at holds
      by_cases this : d.1 = k
      · rw [this, Function.update_self] at holds
        cases holds
        obtain ⟨before, held', same⟩ := owner d past this
        rw [← same]
        exact owned before (by rw [this]; exact held')
      · rw [Function.update_of_ne this] at holds
        exact owned iter holds
    · refine ⟨region, object, fun id inside => ?_, fun iter holds => ?_⟩
      · rw [Function.update_self] at inside
        obtain ⟨other, inside⟩ := Finset.mem_erase.mp inside
        exact lt_of_le_of_ne (lower id inside) (Ne.symm other)
      · rw [iters, Function.update_self] at holds
        cases holds
        rfl
  · rw [iters] at holds
    rw [delivered, List.mem_append, List.mem_singleton]
    by_cases this : j = k
    · subst this
      rw [Function.update_self] at holds
      cases holds
      exact Or.inr (Or.inr rfl)
    · rw [Function.update_of_ne this] at holds
      exact (inv.current j iter holds).imp id Or.inl

theorem presented_none (k : Nat) : presented k none = [] := rfl

theorem presented_ended (k : Nat) (region : Region) : presented k (some ⟨region, 0⟩) = [] := rfl

theorem presented_valid (k : Nat) (region : Region) {pos : Nat} (valid : pos ≠ 0) :
    presented k (some ⟨region, pos⟩) = [(k, pos)] := by
  simp [presented, pmbIterValid, pmbIterPos, valid]

theorem Iterating.iterOpen (sets : ObjectSets objs) (inv : Iterating objs remaining sys) (region : Region) :
    ∃ remaining', Iterating objs remaining' (iterStep sys (.iterOpen region)) := by
  have unopened : ∀ d ∈ sys.delivered, d.1 = sys.opened →
      ∃ before, sys.iters sys.opened = some before ∧ before.region = region := by
    intro d past same
    have := inv.numbered d past
    omega
  rcases inv.lists region with held | ⟨freed, -⟩
  · have kept := held
    obtain ⟨list, found, -⟩ := held
    by_cases empty : remaining region = ∅
    · rw [empty] at kept
      have done : pmbIterOpen sys.store region = (sys.store, none) := by
        have popped := kept.pop_empty 0
        rw [found] at popped
        simp only [pmbIterOpen, found, popped, Nat.one_ne_zero, if_false]
        rw [← found, setRegionObjs_same]
      exact ⟨remaining, inv.idle (k := sys.opened) none (by simp [iterStep, done])
        (by simp [iterStep, done]) (Nat.le_succ _) (by simp [iterStep, done, presented_none]) (by simp)⟩
    · obtain ⟨least, member, lower, ret, val, rest⟩ :=
        kept.pop (Finset.nonempty_iff_ne_empty.mpr empty)
          (fun id inside => sets.room region id (inv.subset region inside)) 0
      have done : pmbIterOpen sys.store region =
          (sys.store.setRegionObjs region (caslistPop (sys.store.regionObjs region) 0).list,
            some ⟨region, least⟩) := by
        rw [found] at ret val ⊢
        simp only [pmbIterOpen, found, ret, val, if_true]
      have valid := sets.positive region least (inv.subset region member)
      exact ⟨_, inv.deliver sets member lower rest kept (by simp [iterStep, done]) (by simp [iterStep, done])
        (Nat.le_succ _) (Nat.lt_succ_self _) (by simp [iterStep, done, presented_valid _ _ valid]) unopened⟩
  · have done : pmbIterOpen sys.store region = (sys.store, none) := by simp [pmbIterOpen, freed]
    exact ⟨remaining, inv.idle (k := sys.opened) none (by simp [iterStep, done])
      (by simp [iterStep, done]) (Nat.le_succ _) (by simp [iterStep, done, presented_none]) (by simp)⟩

theorem Iterating.iterNext (sets : ObjectSets objs) (inv : Iterating objs remaining sys) (k : Nat) :
    ∃ remaining', Iterating objs remaining' (iterStep sys (.iterNext k)) := by
  cases held : sys.iters k with
  | none =>
    exact ⟨remaining, inv.idle (k := k) none (by simp [iterStep, held, pmbIterNext])
      (by simp [iterStep, held, pmbIterNext]) (le_refl _)
      (by simp [iterStep, held, pmbIterNext, presented_none]) (by simp)⟩
  | some iter =>
    obtain ⟨region, pos⟩ := iter
    -- the next fails, and the iterator is at its end
    have ended (done : pmbIterNext sys.store (some ⟨region, pos⟩) = (sys.store, some ⟨region, 0⟩, .err)) :
        ∃ remaining', Iterating objs remaining' (iterStep sys (.iterNext k)) :=
      ⟨remaining, inv.idle (k := k) (some ⟨region, 0⟩) (by simp [iterStep, held, done])
        (by simp [iterStep, held, done]) (le_refl _) (by simp [iterStep, held, done, presented_ended])
        (by simp [held])⟩
    rcases inv.lists region with lists | ⟨freed, invalid⟩
    · by_cases empty : remaining region = ∅
      · have none_left := lists
        rw [empty] at none_left
        refine ended ?_
        simp only [pmbIterNext, none_left.pop_empty]
        rw [setRegionObjs_same]
        rfl
      · obtain ⟨least, member, lower, ret, val, rest⟩ :=
          lists.pop (Finset.nonempty_iff_ne_empty.mpr empty)
            (fun id inside => sets.room region id (inv.subset region inside)) pos
        have done : pmbIterNext sys.store (some ⟨region, pos⟩) =
            (sys.store.setRegionObjs region (caslistPop (sys.store.regionObjs region) pos).list,
              some ⟨region, least⟩, .ok) := by
          simp [pmbIterNext, ret, val]
        have valid := sets.positive region least (inv.subset region member)
        have owner : ∀ d ∈ sys.delivered, d.1 = k →
            ∃ before, sys.iters k = some before ∧ before.region = region := fun _ _ _ => ⟨_, held, rfl⟩
        exact ⟨_, inv.deliver sets member lower rest lists (by simp [iterStep, held, done])
          (by simp [iterStep, held, done]) (le_refl _) (inv.known k _ held)
          (by simp [iterStep, held, done, presented_valid _ _ valid]) owner⟩
    · have zero : pos = 0 := invalid k _ held rfl
      subst zero
      refine ended ?_
      simp only [pmbIterNext, freed, caslistPop]
      rw [← freed, setRegionObjs_same]
      rfl

theorem Iterating.iterClose (inv : Iterating objs remaining sys) {k : Nat} (safe : CloseSafe sys (.iterClose k)) :
    Iterating objs remaining (iterStep sys (.iterClose k)) := by
  cases held : sys.iters k with
  | none =>
    exact inv.idle (k := k) none (by simp [iterStep, held, pmbIterClose]) (by simp [iterStep])
      (le_refl _) rfl (by simp)
  | some iter =>
    have store : (iterStep sys (.iterClose k)).store = sys.store.setRegionObjs iter.region none := by
      simp [iterStep, held, pmbIterClose]
    have others : ∀ j other, (iterStep sys (.iterClose k)).iters j = some other →
        j ≠ k ∧ sys.iters j = some other := by
      intro j other open_
      by_cases this : j = k
      · simp [iterStep, this] at open_
      · simpa [iterStep, this] using open_
    refine ⟨fun region => ?_, inv.subset, inv.once, inv.numbered, fun j other open_ => ?_,
      fun d past => ?_, fun j other open_ => ?_⟩
    · rw [store]
      by_cases same : region = iter.region
      · subst same
        refine Or.inr ⟨regionObjs_setRegionObjs _ _ _, fun j other open_ its => ?_⟩
        obtain ⟨different, before⟩ := others j other open_
        have invalid := safe iter held j different other before its
        simpa [pmbIterValid] using invalid
      · rw [regionObjs_set_other _ _ same]
        refine (inv.lists region).imp id fun closed => ⟨closed.1, fun j other open_ its => ?_⟩
        exact closed.2 j other (others j other open_).2 its
    · exact inv.known j other (others j other open_).2
    · obtain ⟨region, object, later, owner⟩ := inv.recovered d past
      exact ⟨region, object, later, fun other open_ => owner other (others d.1 other open_).2⟩
    · exact inv.current j other (others j other open_).2

theorem Iterating.step (sets : ObjectSets objs) (inv : ∃ remaining, Iterating objs remaining sys)
    {call : IterCall} (safe : CloseSafe sys call) :
    ∃ remaining, Iterating objs remaining (iterStep sys call) := by
  obtain ⟨remaining, inv⟩ := inv
  cases call with
  | iterOpen region => exact inv.iterOpen sets region
  | iterGet k => exact ⟨remaining, inv⟩
  | iterNext k => exact inv.iterNext sets k
  | iterClose k => exact ⟨remaining, inv.iterClose safe⟩

end Steps

section Ends

variable {h : Handle} {objs remaining : Region → Finset Nat} {sys : Iteration}

theorem Iterating.here (inv : Iterating objs remaining sys) {k : Nat} {region : Region} {pos : Nat}
    (held : sys.iters k = some ⟨region, pos⟩) (valid : pos ≠ 0) :
    ListOf (sys.store.regionObjs region) (remaining region) ∧ pos ∈ objs region ∧
      ∀ id ∈ remaining region, pos < id := by
  obtain ⟨region', object, later, owner⟩ :=
    inv.recovered _ ((inv.current k _ held).resolve_left valid)
  have same : region = region' := owner _ held
  subst same
  refine ⟨(inv.lists region).resolve_right ?_, object, later⟩
  rintro ⟨-, ended⟩
  exact valid (ended k _ held rfl)

theorem Iterating.rounds (inv : Iterating objs remaining sys) {k : Nat} {iter : PmbIter}
    (held : sys.iters k = some iter) :
    (sys.delivered.filter fun d => d.1 = k).length ≤ (objs iter.region).card := by
  have nodup : ((sys.delivered.filter fun d => d.1 = k).map Prod.snd).Nodup :=
    inv.once.sublist (List.filter_sublist.map _)
  rw [← List.length_map (f := Prod.snd), ← List.toFinset_card_of_nodup nodup]
  apply Finset.card_le_card
  intro id inside
  simp only [List.mem_toFinset, List.mem_map, List.mem_filter, decide_eq_true_eq] at inside
  obtain ⟨d, ⟨past, rfl⟩, rfl⟩ := inside
  obtain ⟨region, object, -, owner⟩ := inv.recovered d past
  rwa [owner iter held]

theorem Iterating.loops (sets : ObjectSets objs) (inv : Iterating objs remaining sys) {k : Nat}
    {iter : PmbIter} (held : sys.iters k = some iter) :
    ∃ visits, iterLoop h ((objs iter.region).card + 1) sys.store (some iter) = some visits ∧
      visits.length ≤ (objs iter.region).card := by
  obtain ⟨region, pos⟩ := iter
  by_cases valid : pos = 0
  · subst valid
    exact ⟨[], by simp [iterLoop, pmbIterValid], Nat.zero_le _⟩
  · obtain ⟨lists, object, later⟩ := inv.here held valid
    have subset := inv.subset region
    obtain ⟨visited, sorted, members, loop⟩ := iterLoop_visits h (remaining region) sys.store region pos
      lists (fun id inside => sets.room region id (subset inside)) valid later
    have absent : pos ∉ remaining region := fun inside => lt_irrefl _ (later pos inside)
    have bound : (remaining region).card + 1 ≤ (objs region).card := by
      rw [← Finset.card_insert_of_notMem absent]
      exact Finset.card_le_card (Finset.insert_subset object subset)
    refine ⟨_, loop _ (Nat.lt_succ_of_le bound), ?_⟩
    have nodup : visited.Nodup := sorted.imp fun less => ne_of_lt less
    rw [List.length_map, ← List.toFinset_card_of_nodup nodup]
    apply Finset.card_le_card
    intro id inside
    rw [List.mem_toFinset, members] at inside
    rcases inside with rfl | inside
    · exact object
    · exact subset inside

theorem Iterating.failed (sets : ObjectSets objs) (inv : Iterating objs remaining sys) {k : Nat}
    {iter : PmbIter} (held : sys.iters k = some iter)
    (error : (pmbIterNext sys.store (some iter)).2.2 ≠ .ok) :
    pmbIterValid (pmbIterNext sys.store (some iter)).2.1 = false := by
  obtain ⟨region, pos⟩ := iter
  rcases inv.lists region with lists | ⟨freed, ended⟩
  · by_cases empty : remaining region = ∅
    · rw [empty] at lists
      simp [pmbIterNext, lists.pop_empty, pmbIterValid]
    · obtain ⟨least, -, -, ret, -⟩ := lists.pop (Finset.nonempty_iff_ne_empty.mpr empty)
        (fun id inside => sets.room region id (inv.subset region inside)) pos
      simp [pmbIterNext, ret] at error
  · have zero : pos = 0 := ended k _ held rfl
    simp [pmbIterNext, freed, caslistPop, pmbIterValid, zero]

theorem Iterating.ends (sets : ObjectSets objs) (inv : ∃ remaining, Iterating objs remaining sys) :
    IterationsEnd h objs sys := by
  obtain ⟨remaining, inv⟩ := inv
  refine ⟨inv.once, fun d past => ?_, fun k iter held => inv.rounds held,
    fun k iter held => inv.loops sets held, fun k iter held => inv.failed sets held⟩
  obtain ⟨region, object, -⟩ := inv.recovered d past
  exact ⟨region, object⟩

theorem iterLoop_freed (h : Handle) (rounds : Nat) {s : Store} {iter : PmbIter}
    (freed : s.regionObjs iter.region = none) (valid : iter.vectorPos ≠ 0) :
    iterLoop h rounds s (some iter) = none := by
  induction rounds with
  | zero => rfl
  | succ rounds ih =>
    have same : (pmbIterNext s (some iter)).1 = s := by
      simp only [pmbIterNext, freed, caslistPop]
      rw [← freed, setRegionObjs_same]
    have stays : (pmbIterNext s (some iter)).2.1 = some iter := by simp [pmbIterNext, freed, caslistPop]
    simp only [iterLoop, same, stays, ih, pmbIterValid, bne_iff_ne, ne_eq, valid, not_false_eq_true, if_true,
      Option.map_none]

theorem IterationsEnd.breaks {call : IterCall} (unsafe_close : ¬CloseSafe sys call) :
    ¬IterationsEnd h objs (iterStep sys call) := by
  intro ends
  cases call with
  | iterOpen region => exact unsafe_close trivial
  | iterGet k => exact unsafe_close trivial
  | iterNext k => exact unsafe_close trivial
  | iterClose k =>
    simp only [CloseSafe, not_forall, Bool.not_eq_false] at unsafe_close
    obtain ⟨iter, held, j, different, other, held', same, valid⟩ := unsafe_close
    have still : (iterStep sys (.iterClose k)).iters j = some other := by
      simpa [iterStep, different] using held'
    have freed : (iterStep sys (.iterClose k)).store.regionObjs other.region = none := by
      simp [iterStep, held, pmbIterClose, same]
    obtain ⟨visits, loop, -⟩ := ends.loops j other still
    rw [iterLoop_freed h _ freed (by simpa [pmbIterValid] using valid)] at loop
    cases loop

end Ends

section Recovered

variable {h : Handle} {s s' : Store}

def Region.objects : Region → RecoveryList
  | .data => .objs
  | .metadata => .metaObjs

theorem recovered_objects (s : Store) (region : Region) : s.recovered region.objects = s.regionObjs region := by
  cases region <;> rfl

theorem Recovery.objectSets (ids : h.Ids) (recovered : Recovery h s.emptyLists s') :
    ObjectSets s'.regionIds ∧ ∀ region, ListOf (s'.regionObjs region) (s'.regionIds region) := by
  have lists : ∀ region, ListOf (s'.regionObjs region) (s'.regionIds region) ∧
      ∀ id ∈ s'.regionIds region, id ≠ 0 ∧ id < h.totalObjsCount + h.metaObjsCount ∧
        region.objects = recoveryList h s.pool.mem id := by
    intro region
    obtain ⟨members, lists, iff⟩ := recovery_lists ids recovered region.objects
    rw [recovered_objects] at lists
    have same : s'.regionIds region = members := by
      obtain ⟨list, found, represents⟩ := lists
      simp [Store.regionIds, found, represents.elements_eq]
    rw [same]
    exact ⟨lists, fun id inside => (iff id).mp inside⟩
  refine ⟨⟨fun region id inside => ((lists region).2 id inside).1, fun region id inside => ?_, ?_⟩,
    fun region => (lists region).1⟩
  · have := ((lists region).2 id inside).2.1
    have := ids.fit
    omega
  · intro region region' id inside inside'
    have kind := ((lists region).2 id inside).2.2
    have kind' := ((lists region').2 id inside').2.2
    rw [← kind'] at kind
    cases region <;> cases region' <;> first | rfl | cases kind

theorem Iterating.opened {objs : Region → Finset Nat} (lists : ∀ region, ListOf (s.regionObjs region) (objs region)) :
    Iterating objs objs (Iteration.start s) where
  lists region := Or.inl (lists region)
  subset region := Finset.Subset.refl _
  once := List.nodup_nil
  numbered := by simp [Iteration.start]
  known := by simp [Iteration.start]
  recovered := by simp [Iteration.start]
  current := by simp [Iteration.start]

end Recovered

-- however the calls of several iterators come, each id is delivered once and every loop ends, exactly when no
-- iterator is closed while another one of its region is on an object
theorem iterations_end_iff {h : Handle} (ids : h.Ids) {s s' : Store} (opened : OpenExisting h s s')
    (calls : List IterCall) :
    Always iterStep (IterationsEnd h s'.regionIds) (Iteration.start s') calls ↔
      EachStep iterStep CloseSafe (Iteration.start s') calls := by
  obtain ⟨checked, -, recovered⟩ := opened
  obtain ⟨sets, lists⟩ := recovered.objectSets ids
  have ends : ∀ sys, (∃ remaining, Iterating s'.regionIds remaining sys) → IterationsEnd h s'.regionIds sys :=
    fun sys inv => Iterating.ends sets inv
  exact always_iff_safe ends (fun sys call inv safe => Iterating.step sets inv safe)
    (fun sys call _ unsafe_close => IterationsEnd.breaks unsafe_close) ⟨_, Iterating.opened lists⟩ calls

def twoObjectsCalls : List Call :=
  [.txBegin, .tput 1 (onePair 0), .tput 1 (onePair 0), .txCommit 1, .txExecute 1]

def bothIterated : List IterCall := [.iterOpen .data, .iterOpen .data, .iterNext 0, .iterNext 1, .iterClose 0]

theorem iterations_end_sample :
    ∃ s s', (runCalls flatHandle flatStore twoObjectsCalls).map Prod.fst = some s ∧ OpenExisting flatHandle s s' ∧
      s'.objsList = some ⟨2, 1, 2, []⟩ ∧
      (bothIterated.foldl iterStep (Iteration.start s')).delivered = [(0, 1), (1, 2)] ∧
      Always iterStep (IterationsEnd flatHandle s'.regionIds) (Iteration.start s') bothIterated := by
  have run : (runCalls flatHandle flatStore twoObjectsCalls).map (fun done =>
      ((recoverInOrder flatHandle done.1).objsList,
        (bothIterated.foldl iterStep (Iteration.start (recoverInOrder flatHandle done.1))).delivered,
        ((bothIterated.take 4).foldl iterStep (Iteration.start (recoverInOrder flatHandle done.1))).iters 1)) =
      some (some ⟨2, 1, 2, []⟩, [(0, 1), (1, 2)], some ⟨.data, 0⟩) := by decide +kernel
  obtain ⟨⟨s, rets⟩, run, results⟩ := Option.map_eq_some_iff.mp run
  simp only [Prod.mk.injEq] at results
  obtain ⟨objs, delivered, last⟩ := results
  have opened : OpenExisting flatHandle s (recoverInOrder flatHandle s) :=
    ⟨_, flatHandle_checked s, recoverInOrder_recovery flatHandle s⟩
  refine ⟨s, _, by rw [run]; rfl, opened, objs, delivered, (iterations_end_iff flatHandle_layout.toIds opened _).mpr
    ⟨trivial, trivial, trivial, trivial, fun iter _ j away other held _ => ?_, trivial⟩⟩
  -- the other iterator has come to its end
  by_cases second : j = 1
  · subst second
    cases last.symm.trans held
    rfl
  · simp [iterStep, Iteration.start, away, second] at held

-- two iterators take one object each, and the first is closed: the next of the second one fails, and leaves it on its
-- object for ever
theorem closed_list_traps_iterator :
    ∃ s rets s', runCalls flatHandle flatStore twoObjectsCalls = some (s, rets) ∧
      (∀ ret ∈ rets, ret.status = .ok) ∧ OpenExisting flatHandle s s' ∧ s'.objsList = some ⟨2, 1, 2, []⟩ ∧
      ([.iterOpen .data, .iterOpen .data, .iterClose 0, .iterNext 1].foldl iterStep
        (Iteration.start s')).delivered = [(0, 1), (1, 2), (1, 2)] ∧
      (∀ rounds, iterLoop flatHandle rounds (s'.setRegionObjs .data none) (some ⟨.data, 2⟩) = none) ∧
      ¬Always iterStep (IterationsEnd flatHandle s'.regionIds) (Iteration.start s')
        [.iterOpen .data, .iterOpen .data, .iterClose 0, .iterNext 1] := by
  have run : (runCalls flatHandle flatStore twoObjectsCalls).map
      (fun done => (done.2.map Return.status, (recoverInOrder flatHandle done.1).objsList,
        ([.iterOpen .data, .iterOpen .data, .iterClose 0, .iterNext 1].foldl iterStep
          (Iteration.start (recoverInOrder flatHandle done.1))).delivered)) =
      some (List.replicate 5 .ok, some ⟨2, 1, 2, []⟩, [(0, 1), (1, 2), (1, 2)]) := by decide +kernel
  rw [Option.map_eq_some_iff] at run
  obtain ⟨⟨s, rets⟩, run, results⟩ := run
  simp only [Prod.mk.injEq] at results
  obtain ⟨statuses, objs, delivered⟩ := results
  refine ⟨s, rets, recoverInOrder flatHandle s, run, fun ret member => ?_,
    ⟨_, flatHandle_checked s, recoverInOrder_recovery flatHandle s⟩, objs, delivered, fun rounds => ?_,
    fun always => ?_⟩
  · have status : ret.status ∈ rets.map Return.status := List.mem_map_of_mem member
    rw [statuses] at status
    exact List.eq_of_mem_replicate status
  · exact iterLoop_freed flatHandle rounds (regionObjs_setRegionObjs _ _ _) (by decide)
  · have once := always.2.2.2.2.once
    simp only [List.foldl_cons, List.foldl_nil] at delivered
    rw [delivered] at once
    revert once
    decide

end PmBackend
