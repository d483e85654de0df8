import PmBackend.Shared.DeferredLog

set_option autoImplicit false

namespace DeferredLog

structure Tx (K V : Type) where
  made : K → Option V
  pending : List (Change K V)
  commited : Bool

structure TxMap (K V : Type) where
  objects : K → Option V
  txs : Nat → Option (Tx K V)
  executed : List (Tx K V)

inductive TxAction (K V : Type) where
  | begin (i : Nat)
  -- a new key, and a change for the end
  | create (i : Nat) (key : K) (value : V) (change : Change K V)
  | defer (i : Nat) (change : Change K V)
  | commit (i : Nat)
  | execute (i : Nat)
  | abort (i : Nat)
  -- a change outside every transaction
  | alone (change : Change K V)

variable {K V : Type}

def Tx.new : Tx K V := ⟨fun _ => none, [], false⟩

def TxMap.start (map : K → Option V) : TxMap K V := ⟨map, fun _ => none, []⟩

-- what the transaction of `i` has made of a key
def TxMap.madeBy (t : TxMap K V) (i : Nat) (key : K) : Option V := (t.txs i).bind fun tx => tx.made key

def TxMap.pendingOf (t : TxMap K V) (i : Nat) : List (Change K V) := (t.txs i).elim [] Tx.pending

def TxMap.set (t : TxMap K V) (i : Nat) (state : Option (Tx K V)) : TxMap K V :=
  { t with txs := Function.update t.txs i state }

def TxMap.edit (t : TxMap K V) (i : Nat) (f : Tx K V → Tx K V) : TxMap K V := t.set i ((t.txs i).map f)

section Lookup

variable {t : TxMap K V} {tx : Tx K V} {i j : Nat}

@[simp] theorem madeBy_set_self (t : TxMap K V) (i : Nat) (state : Option (Tx K V)) (key : K) :
    (t.set i state).madeBy i key = state.bind fun tx => tx.made key := by
  simp [TxMap.madeBy, TxMap.set]

@[simp] theorem madeBy_set_other (t : TxMap K V) (state : Option (Tx K V)) (other : j ≠ i) (key : K) :
    (t.set i state).madeBy j key = t.madeBy j key := by
  simp [TxMap.madeBy, TxMap.set, other]

@[simp] theorem pendingOf_set_self (t : TxMap K V) (i : Nat) (state : Option (Tx K V)) :
    (t.set i state).pendingOf i = state.elim [] Tx.pending := by
  simp [TxMap.pendingOf, TxMap.set]

@[simp] theorem pendingOf_set_other (t : TxMap K V) (state : Option (Tx K V)) (other : j ≠ i) :
    (t.set i state).pendingOf j = t.pendingOf j := by
  simp [TxMap.pendingOf, TxMap.set, other]

theorem madeBy_eq (here : t.txs i = some tx) (key : K) : t.madeBy i key = tx.made key := by
  simp [TxMap.madeBy, here]

theorem pendingOf_eq (here : t.txs i = some tx) : t.pendingOf i = tx.pending := by
  simp [TxMap.pendingOf, here]

end Lookup

variable [DecidableEq K]

def Tx.create (tx : Tx K V) (key : K) (value : V) (change : Change K V) : Tx K V :=
  { tx with made := Function.update tx.made key (some value), pending := tx.pending ++ [change] }

def Tx.defer (tx : Tx K V) (change : Change K V) : Tx K V := { tx with pending := tx.pending ++ [change] }

def Tx.commit (tx : Tx K V) : Tx K V := { tx with commited := true }

-- one transaction from its begin to its execution, with nothing between
def Tx.perform (map : K → Option V) (tx : Tx K V) : K → Option V :=
  applyAll tx.pending fun key => (tx.made key).or (map key)

def serial (map : K → Option V) (txs : List (Tx K V)) : K → Option V := txs.foldl Tx.perform map

-- all its pending changes, or the removal of the keys it has made
def TxMap.finish (t : TxMap K V) (i : Nat) (stands : Bool) : TxMap K V :=
  match t.txs i with
  | none => t
  | some tx =>
    { objects := if stands then applyAll tx.pending t.objects
        else fun key => if (tx.made key).isSome then none else t.objects key
      txs := Function.update t.txs i none
      executed := if stands then t.executed ++ [tx] else t.executed }

def TxMap.next (t : TxMap K V) : TxAction K V → TxMap K V
  | .begin i => t.set i (some .new)
  | .create i key value change =>
    { t.edit i fun tx => tx.create key value change with objects := Function.update t.objects key (some value) }
  | .defer i change => t.edit i fun tx => tx.defer change
  | .commit i => t.edit i Tx.commit
  | .execute i => t.finish i true
  | .abort i => t.finish i false
  | .alone change =>
    { t with
      objects := change.apply t.objects
      executed := t.executed ++ [{ Tx.new with pending := [change] }] }

-- the transactions of the slots end, one after another
def TxMap.settle (t : TxMap K V) (stands : Nat → Bool) (slots : List Nat) : TxMap K V :=
  slots.foldl (fun t i => t.finish i (stands i)) t

-- the end of the transaction of `i` takes the key away
def TxMap.Drops (t : TxMap K V) (stands : Bool) (i : Nat) (key : K) : Prop :=
  ∃ tx, t.txs i = some tx ∧ if stands then Change.remove key ∈ tx.pending else tx.made key ≠ none

-- only an open transaction goes on, and only a commited one is executed
def TxMap.Allows (t : TxMap K V) : TxAction K V → Prop
  | .begin i => t.txs i = none
  | .create i key _ _ => (∃ tx, t.txs i = some tx ∧ tx.commited = false) ∧ t.objects key = none
  | .defer i _ => ∃ tx, t.txs i = some tx ∧ tx.commited = false
  | .commit i => ∃ tx, t.txs i = some tx ∧ tx.commited = false
  | .execute i => ∃ tx, t.txs i = some tx ∧ tx.commited = true
  | .abort i => ∃ tx, t.txs i = some tx
  | .alone _ => True

-- no open transaction but that of `i` has made a key of the change
def TxMap.Unshared (t : TxMap K V) (i : Option Nat) (change : Change K V) : Prop :=
  ∀ key, change.Names key → ∀ j, some j ≠ i → t.madeBy j key = none

-- no open transaction names a key that another has made
def TxMap.Isolates (t : TxMap K V) : TxAction K V → Prop
  | .create i key _ change => t.Unshared (some i) change ∧ ∀ j, j ≠ i → ∀ c ∈ t.pendingOf j, ¬c.Names key
  | .defer i change => t.Unshared (some i) change
  | .alone change => t.Unshared none change
  | _ => True

-- no open transaction but that of `i` has made the key, or is to change it
def TxMap.Own (t : TxMap K V) (i : Nat) (key : K) : Prop :=
  ∀ j, j ≠ i → t.madeBy j key = none ∧ ∀ c ∈ t.pendingOf j, ¬c.Names key

-- the action is that of the transaction of `i`, or does not name the key
def TxAction.Spares (i : Nat) (key : K) : TxAction K V → Prop
  | .create j k _ change => j = i ∨ k ≠ key ∧ ¬change.Names key
  | .defer j change => j = i ∨ ¬change.Names key
  | .alone change => ¬change.Names key
  | _ => True

structure Serial (map : K → Option V) (t : TxMap K V) : Prop where
  made : ∀ i key value, t.madeBy i key = some value → t.objects key = some value ∧ serial map t.executed key = none
  other : ∀ key, (∀ i, t.madeBy i key = none) → t.objects key = serial map t.executed key
  apart : ∀ i j, i ≠ j → ∀ key, t.madeBy i key ≠ none → t.madeBy j key = none
  unshared : ∀ i, ∀ change ∈ t.pendingOf i, t.Unshared (some i) change

section Maps

variable {map map' : K → Option V} {key : K} {changes : List (Change K V)}

theorem applyAll_at (same : map key = map' key) : applyAll changes map key = applyAll changes map' key := by
  induction changes generalizing map map' with
  | nil => exact same
  | cons change rest ih =>
    refine ih ?_
    by_cases named : change.Names key
    · cases change with
      | remove k =>
        subst named
        simp only [Change.apply, Function.update_self]
      | modify k f =>
        subst named
        simp only [Change.apply, Function.update_self, same]
      | keep => exact same
    · rw [apply_other named, apply_other named, same]

theorem serial_append (map : K → Option V) (txs : List (Tx K V)) (tx : Tx K V) :
    serial map (txs ++ [tx]) = tx.perform (serial map txs) := by
  simp [serial]

theorem perform_alone (map : K → Option V) (change : Change K V) :
    Tx.perform map { Tx.new with pending := [change] } = change.apply map := rfl

end Maps

section Runs

variable {map : K → Option V} {t : TxMap K V} {tx : Tx K V} {i : Nat} {action : TxAction K V}

theorem Serial.start (map : K → Option V) : Serial map (TxMap.start map) :=
  ⟨nofun, fun _ _ => rfl, fun _ _ _ _ _ => rfl, fun _ _ => nofun⟩

theorem Serial.goes (inv : Serial map t) {state : Option (Tx K V)}
    (made : ∀ key, (state.bind fun tx => tx.made key) = t.madeBy i key)
    (unshared : ∀ change ∈ state.elim [] Tx.pending, t.Unshared (some i) change) : Serial map (t.set i state) := by
  have same : ∀ j key, (t.set i state).madeBy j key = t.madeBy j key := by
    intro j key
    by_cases here : j = i
    · rw [here, madeBy_set_self, made]
    · rw [madeBy_set_other t state here]
  refine ⟨fun j key value there => inv.made j key value (by rw [← same]; exact there),
    fun key nobody => inv.other key fun j => by rw [← same]; exact nobody j, fun j k other key there => ?_,
    fun j change member key named k other => ?_⟩
  · rw [same] at there ⊢
    exact inv.apart j k other key there
  · rw [same]
    by_cases here : j = i
    · rw [here, pendingOf_set_self] at member
      exact unshared change member key named k (here ▸ other)
    · rw [pendingOf_set_other t state here] at member
      exact inv.unshared j change member key named k other

theorem Serial.defer (inv : Serial map t) {change : Change K V} (unshared : t.Unshared (some i) change) :
    Serial map (t.next (.defer i change)) := by
  refine inv.goes (fun key => ?_) fun c member => ?_
  · cases here : t.txs i <;> simp [TxMap.madeBy, Tx.defer, here]
  · cases here : t.txs i with
    | none => simp [here] at member
    | some tx =>
      simp only [here, Option.map_some, Option.elim_some, Tx.defer, List.mem_append, List.mem_singleton] at member
      rcases member with before | rfl
      · exact inv.unshared i c (by rw [pendingOf_eq here]; exact before)
      · exact unshared

theorem Serial.commit (inv : Serial map t) : Serial map (t.next (.commit i)) := by
  refine inv.goes (fun key => ?_) fun c member => ?_
  · cases here : t.txs i <;> simp [TxMap.madeBy, Tx.commit, here]
  · refine inv.unshared i c ?_
    cases here : t.txs i with
    | none => simp [here] at member
    | some tx =>
      rw [pendingOf_eq here]
      simpa [here, Tx.commit] using member

theorem Serial.begin (inv : Serial map t) (free : t.txs i = none) : Serial map (t.next (.begin i)) :=
  inv.goes (fun key => by simp [TxMap.madeBy, Tx.new, free]) fun _ => by simp [Tx.new]

theorem Serial.create (inv : Serial map t) {key : K} {value : V} {change : Change K V} (here : t.txs i = some tx)
    (free : t.objects key = none) (unshared : t.Unshared (some i) change)
    (unnamed : ∀ j, j ≠ i → ∀ c ∈ t.pendingOf j, ¬c.Names key) : Serial map (t.next (.create i key value change)) := by
  have nobody : ∀ j, t.madeBy j key = none := by
    intro j
    cases there : t.madeBy j key with
    | none => rfl
    | some value' =>
      have alive := (inv.made j key value' there).1
      rw [free] at alive
      cases alive
  have lost : serial map t.executed key = none := by rw [← inv.other key nobody, free]
  have self : ∀ k, (t.next (.create i key value change)).madeBy i k = Function.update tx.made key (some value) k :=
    fun k => by simp [TxMap.next, TxMap.edit, TxMap.madeBy, TxMap.set, here, Tx.create]
  have other : ∀ j, j ≠ i → ∀ k, (t.next (.create i key value change)).madeBy j k = t.madeBy j k :=
    fun j different k => by simp [TxMap.next, TxMap.edit, TxMap.madeBy, TxMap.set, different]
  have elsewhere : ∀ j k, k ≠ key → (t.next (.create i key value change)).madeBy j k = t.madeBy j k := by
    intro j k different
    by_cases same : j = i
    · rw [same, self, Function.update_of_ne different, madeBy_eq here]
    · exact other j same k
  have objects : ∀ k, k ≠ key → (t.next (.create i key value change)).objects k = t.objects k :=
    fun k different => Function.update_of_ne different _ _
  refine ⟨fun j k v there => ?_, fun k none_made => ?_, fun j k different k' there => ?_,
    fun j c member k' named k away => ?_⟩
  · by_cases same : k = key
    · subst same
      by_cases mine : j = i
      · rw [mine, self, Function.update_self] at there
        exact ⟨(Function.update_self _ _ _).trans there, lost⟩
      · rw [other j mine, nobody j] at there
        cases there
    · rw [elsewhere j k same] at there
      rw [objects k same]
      exact inv.made j k v there
  · have different : k ≠ key := by
      rintro rfl
      have none_here := none_made i
      rw [self, Function.update_self] at none_here
      cases none_here
    rw [objects k different]
    exact inv.other k fun j => by rw [← elsewhere j k different]; exact none_made j
  · by_cases same : k' = key
    · subst same
      have mine : j = i := by
        by_contra away
        rw [other j away, nobody j] at there
        exact there rfl
      rw [other k (fun here => different (mine.trans here.symm)), nobody k]
    · rw [elsewhere _ k' same] at there ⊢
      exact inv.apart j k different k' there
  · have before : c ∈ t.pendingOf j ∨ (j = i ∧ c = change) := by
      by_cases mine : j = i
      · have listed : (t.next (.create i key value change)).pendingOf i = tx.pending ++ [change] := by
          simp [TxMap.next, TxMap.edit, TxMap.pendingOf, TxMap.set, here, Tx.create]
        rw [mine, listed, List.mem_append, List.mem_singleton, ← pendingOf_eq here] at member
        rcases member with old | new
        · exact Or.inl (mine ▸ old)
        · exact Or.inr ⟨mine, new⟩
      · left
        simpa [TxMap.next, TxMap.edit, TxMap.pendingOf, TxMap.set, mine] using member
    have shared : t.Unshared (some j) c := by
      rcases before with old | ⟨rfl, rfl⟩
      · exact inv.unshared j c old
      · exact unshared
    by_cases same : k' = key
    · subst same
      have mine : k ≠ i := by
        rintro rfl
        rcases before with old | ⟨here, -⟩
        · exact unnamed j (fun same => away (congrArg some same.symm)) c old named
        · exact away (congrArg some here.symm)
      rw [other k mine, nobody k]
    · rw [elsewhere k k' same]
      exact shared k' named k away

theorem Serial.finish (inv : Serial map t) (here : t.txs i = some tx) (stands : Bool) :
    Serial map (t.finish i stands) := by
  have self : ∀ key, (t.finish i stands).madeBy i key = none := fun key => by
    simp [TxMap.finish, here, TxMap.madeBy]
  have other : ∀ j, j ≠ i → ∀ key, (t.finish i stands).madeBy j key = t.madeBy j key := fun j different key => by
    simp [TxMap.finish, here, TxMap.madeBy, different]
  have pending : ∀ j, j ≠ i → (t.finish i stands).pendingOf j = t.pendingOf j := fun j different => by
    simp [TxMap.finish, here, TxMap.pendingOf, different]
  -- a key of another open transaction is none of this one
  have away : ∀ j, j ≠ i → ∀ key value, t.madeBy j key = some value →
      tx.made key = none ∧ ∀ change ∈ tx.pending, ¬change.Names key := by
    intro j different key value there
    have some_made : t.madeBy j key ≠ none := by rw [there]; exact Option.some_ne_none value
    refine ⟨by rw [← madeBy_eq here]; exact inv.apart j i different key some_made, fun change member named => ?_⟩
    exact some_made (inv.unshared i change (by rw [pendingOf_eq here]; exact member) key named j
      fun same => different (Option.some.inj same))
  have objects : ∀ key, (t.finish i stands).objects key =
      if stands then applyAll tx.pending t.objects key else if (tx.made key).isSome then none else t.objects key := by
    intro key
    simp only [TxMap.finish, here]
    cases stands <;> rfl
  have left : ∀ key, serial map (t.finish i stands).executed key =
      if stands then tx.perform (serial map t.executed) key else serial map t.executed key := by
    intro key
    simp only [TxMap.finish, here]
    cases stands
    · rfl
    · simp only [if_true, serial_append]
  refine ⟨fun j key value there => ?_, fun key nobody => ?_, fun j k different key there => ?_,
    fun j change member key named k different => ?_⟩
  · have different : j ≠ i := by
      rintro rfl
      rw [self] at there
      cases there
    rw [other j different] at there
    obtain ⟨unmade, unnamed⟩ := away j different key value there
    obtain ⟨alive, missing⟩ := inv.made j key value there
    rw [objects, left]
    cases stands
    · simp [unmade, alive, missing]
    · refine ⟨?_, ?_⟩
      · rw [if_pos rfl, applyAll_other unnamed, alive]
      · rw [if_pos rfl, Tx.perform, applyAll_none (by rw [unmade, missing]; rfl)]
  · have others : ∀ j, j ≠ i → t.madeBy j key = none := fun j different => by rw [← other j different]; exact nobody j
    rw [objects, left]
    cases made : tx.made key with
    | none =>
      have same : t.objects key = serial map t.executed key := by
        refine inv.other key fun j => ?_
        by_cases mine : j = i
        · rw [mine, madeBy_eq here, made]
        · exact others j mine
      cases stands
      · simpa using same
      · rw [if_pos rfl, if_pos rfl]
        exact applyAll_at (by rw [made]; exact same)
    | some value =>
      obtain ⟨alive, missing⟩ := inv.made i key value (by rw [madeBy_eq here, made])
      cases stands
      · simp [missing]
      · rw [if_pos rfl, if_pos rfl]
        exact applyAll_at (by rw [made, alive]; rfl)
  · have mine : j ≠ i := by
      rintro rfl
      exact there (self key)
    rw [other j mine] at there
    by_cases here' : k = i
    · rw [here', self]
    · rw [other k here']
      exact inv.apart j k different key there
  · by_cases mine : j = i
    · rw [mine] at member
      simp [TxMap.finish, here, TxMap.pendingOf] at member
    · rw [pending j mine] at member
      by_cases here' : k = i
      · rw [here', self]
      · rw [other k here']
        exact inv.unshared j change member key named k different

theorem Serial.alone (inv : Serial map t) {change : Change K V} (unshared : t.Unshared none change) :
    Serial map (t.next (.alone change)) := by
  have left : serial map (t.next (.alone change)).executed = change.apply (serial map t.executed) := by
    simp only [TxMap.next, serial_append, perform_alone]
  refine ⟨fun j key value there => ?_, fun key nobody => ?_, inv.apart, inv.unshared⟩
  · obtain ⟨alive, missing⟩ := inv.made j key value there
    have unnamed : ¬change.Names key := fun named => by
      have nothing := unshared key named j (Option.some_ne_none j)
      change t.madeBy j key = some value at there
      rw [there] at nothing
      cases nothing
    rw [left]
    exact ⟨(apply_other unnamed).trans alive, (apply_other unnamed).trans missing⟩
  · rw [left]
    have same := inv.other key nobody
    have moved : applyAll [change] t.objects key = applyAll [change] (serial map t.executed) key := applyAll_at same
    exact moved

theorem Serial.next (inv : Serial map t) (allowed : t.Allows action) (isolated : t.Isolates action) :
    Serial map (t.next action) := by
  cases action with
  | begin i => exact inv.begin allowed
  | create i key value change =>
    obtain ⟨⟨tx, here, -⟩, free⟩ := allowed
    exact inv.create here free isolated.1 isolated.2
  | defer i change => exact inv.defer isolated
  | commit i => exact inv.commit
  | execute i =>
    obtain ⟨tx, here, -⟩ := allowed
    exact inv.finish here true
  | abort i =>
    obtain ⟨tx, here⟩ := allowed
    exact inv.finish here false
  | alone change => exact inv.alone isolated

theorem Serial.finished (inv : Serial map t) (none_open : ∀ i, t.txs i = none) :
    t.objects = serial map t.executed := by
  funext key
  exact inv.other key fun i => by simp [TxMap.madeBy, none_open i]

theorem Serial.settle (inv : Serial map t) (stands : Nat → Bool) (slots : List Nat) :
    Serial map (t.settle stands slots) := by
  induction slots generalizing t with
  | nil => exact inv
  | cons i rest ih =>
    refine ih (t := t.finish i (stands i)) ?_
    cases here : t.txs i with
    | none =>
      have same : t.finish i (stands i) = t := by simp only [TxMap.finish, here]
      rwa [same]
    | some tx => exact inv.finish here (stands i)

end Runs

section Settling

variable {t : TxMap K V} {stands : Nat → Bool} {slots : List Nat} {key : K} {i j : Nat}

theorem finish_txs (t : TxMap K V) (i : Nat) (result : Bool) (j : Nat) :
    (t.finish i result).txs j = if j = i then none else t.txs j := by
  cases here : t.txs i with
  | none =>
    simp only [TxMap.finish, here]
    split
    · next same => rw [same, here]
    · rfl
  | some tx => simp only [TxMap.finish, here, Function.update_apply]

theorem next_closed {action : TxAction K V} (closed : t.txs j = none) (others : ∀ i, action = .begin i → j ≠ i) :
    (t.next action).txs j = none := by
  have edited : ∀ (i : Nat) (f : Tx K V → Tx K V), (t.edit i f).txs j = none := by
    intro i f
    simp only [TxMap.edit, TxMap.set, Function.update_apply]
    split
    · next here => rw [← here, closed, Option.map_none]
    · exact closed
  cases action with
  | begin i => simpa [TxMap.next, TxMap.set, others i rfl] using closed
  | create i key value change => exact edited i _
  | defer i change => exact edited i _
  | commit i => exact edited i _
  | execute i =>
    rw [TxMap.next, finish_txs, closed, ite_self]
  | abort i =>
    rw [TxMap.next, finish_txs, closed, ite_self]
  | alone change => exact closed

theorem finish_none (missing : t.objects key = none) (result : Bool) : (t.finish i result).objects key = none := by
  cases here : t.txs i with
  | none => simpa only [TxMap.finish, here] using missing
  | some tx =>
    simp only [TxMap.finish, here]
    split
    · exact applyAll_none missing
    · simp only [missing, ite_self]

omit [DecidableEq K] in
theorem drops_pending : t.Drops true i key ↔ Change.remove key ∈ t.pendingOf i := by
  cases here : t.txs i <;> simp [TxMap.Drops, TxMap.pendingOf, here]

omit [DecidableEq K] in
theorem drops_made : t.Drops false i key ↔ t.madeBy i key ≠ none := by
  cases here : t.txs i <;> simp [TxMap.Drops, TxMap.madeBy, here]

theorem finish_dropped {result : Bool} (drops : t.Drops result i key) : (t.finish i result).objects key = none := by
  obtain ⟨tx, here, drops⟩ := drops
  simp only [TxMap.finish, here]
  cases result with
  | true => exact applyAll_removed (by simpa using drops)
  | false =>
    have made : (tx.made key).isSome := Option.isSome_iff_ne_none.mpr (by simpa using drops)
    simp [made]

theorem finish_kept {result : Bool} (kept : ¬t.Drops result i key)
    (plain : result = true → ∀ f, Change.modify key f ∉ t.pendingOf i) :
    (t.finish i result).objects key = t.objects key := by
  cases here : t.txs i with
  | none => simp only [TxMap.finish, here]
  | some tx =>
    have spared : ¬if result then Change.remove key ∈ tx.pending else tx.made key ≠ none :=
      fun drops => kept ⟨tx, here, drops⟩
    rw [pendingOf_eq here] at plain
    simp only [TxMap.finish, here]
    cases result with
    | true =>
      refine applyAll_other fun change member named => ?_
      cases change with
      | remove k =>
        subst named
        exact spared (by simpa using member)
      | modify k f =>
        subst named
        exact plain rfl f member
      | keep => exact named
    | false =>
      have unmade : tx.made key = none := by simpa using spared
      simp [unmade]

theorem drops_finish {result other : Bool} (different : j ≠ i) :
    (t.finish i result).Drops other j key ↔ t.Drops other j key := by
  simp only [TxMap.Drops, finish_txs, if_neg different]

theorem settle_none (missing : t.objects key = none) : (t.settle stands slots).objects key = none := by
  induction slots generalizing t with
  | nil => exact missing
  | cons i rest ih => exact ih (finish_none missing (stands i))

theorem settle_dropped (member : i ∈ slots) (drops : t.Drops (stands i) i key) :
    (t.settle stands slots).objects key = none := by
  induction slots generalizing t with
  | nil => cases member
  | cons first rest ih =>
    by_cases here : i = first
    · subst here
      have gone : ((t.finish i (stands i)).settle stands rest).objects key = none := settle_none (finish_dropped drops)
      exact gone
    · exact ih ((List.mem_cons.mp member).resolve_left here) ((drops_finish here).mpr drops)

theorem settle_kept (kept : ∀ i ∈ slots, ¬t.Drops (stands i) i key)
    (plain : ∀ i ∈ slots, stands i = true → ∀ f, Change.modify key f ∉ t.pendingOf i) :
    (t.settle stands slots).objects key = t.objects key := by
  induction slots generalizing t with
  | nil => rfl
  | cons first rest ih =>
    have now := finish_kept (kept first List.mem_cons_self) (plain first List.mem_cons_self)
    rw [← now]
    refine ih (fun i member drops => ?_) fun i member standing f listed => ?_
    · by_cases here : i = first
      · obtain ⟨tx, there, -⟩ := drops
        rw [finish_txs, if_pos here] at there
        cases there
      · exact kept i (List.mem_cons_of_mem _ member) ((drops_finish here).mp drops)
    · by_cases here : i = first
      · simp only [TxMap.pendingOf, finish_txs, if_pos here, Option.elim_none, List.not_mem_nil] at listed
      · have same : (t.finish first (stands first)).pendingOf i = t.pendingOf i := by
          simp only [TxMap.pendingOf, finish_txs, if_neg here]
        rw [same] at listed
        exact plain i (List.mem_cons_of_mem _ member) standing f listed

theorem settle_closed (closed : ∀ i, t.txs i = none) (stands : Nat → Bool) (slots : List Nat) :
    t.settle stands slots = t := by
  induction slots with
  | nil => rfl
  | cons first rest ih =>
    have same : t.finish first (stands first) = t := by simp [TxMap.finish, closed]
    change (t.finish first (stands first)).settle stands rest = t
    rw [same, ih]

theorem settle_txs (t : TxMap K V) (stands : Nat → Bool) (slots : List Nat) (j : Nat) :
    (t.settle stands slots).txs j = if j ∈ slots then none else t.txs j := by
  induction slots generalizing t with
  | nil => rfl
  | cons first rest ih =>
    change ((t.finish first (stands first)).settle stands rest).txs j = _
    rw [ih, finish_txs]
    by_cases here : j = first
    · simp [here]
    · simp [here]

end Settling

section Owned

variable {t u : TxMap K V} {stands : Nat → Bool} {result : Bool} {slots : List Nat} {key : K} {i j : Nat}
  {action : TxAction K V}

theorem finish_closed (closed : t.txs i = none) (result : Bool) : t.finish i result = t := by
  simp only [TxMap.finish, closed]

theorem finish_congr (txs : u.txs i = t.txs i) (objects : u.objects key = t.objects key) :
    (u.finish i result).objects key = (t.finish i result).objects key := by
  cases here : t.txs i with
  | none => rw [finish_closed here, finish_closed (txs.trans here), objects]
  | some tx =>
    simp only [TxMap.finish, here, txs.trans here]
    cases result with
    | true => exact applyAll_at objects
    | false => simp [objects]

omit [DecidableEq K] in
theorem TxMap.Own.congr (own : t.Own i key) (txs : ∀ j, j ≠ i → u.txs j = t.txs j) : u.Own i key := by
  intro j other
  have same := txs j other
  unfold TxMap.Own TxMap.madeBy TxMap.pendingOf at own
  rw [TxMap.madeBy, TxMap.pendingOf, same]
  exact own j other

theorem TxMap.Own.finish (own : t.Own i key) (j : Nat) (result : Bool) : (t.finish j result).Own i key := by
  intro k other
  simp only [TxMap.madeBy, TxMap.pendingOf, finish_txs]
  split
  · exact ⟨rfl, fun _ => nofun⟩
  · exact own k other

theorem TxMap.Own.finish_other (own : t.Own i key) (other : j ≠ i) (result : Bool) :
    (t.finish j result).objects key = t.objects key := by
  obtain ⟨unmade, unnamed⟩ := own j other
  refine finish_kept (fun drops => ?_) fun _ f listed => unnamed _ listed rfl
  cases result with
  | true => exact unnamed _ (drops_pending.mp drops) rfl
  | false => exact drops_made.mp drops unmade

theorem TxMap.Own.settle_closed (own : t.Own i key) (closed : t.txs i = none) :
    (t.settle stands slots).objects key = t.objects key := by
  induction slots generalizing t with
  | nil => rfl
  | cons first rest ih =>
    have rest_same : ((t.finish first (stands first)).settle stands rest).objects key =
        (t.finish first (stands first)).objects key := ih (own.finish first _) (by rw [finish_txs, closed, ite_self])
    refine rest_same.trans ?_
    by_cases here : first = i
    · rw [here, finish_closed closed]
    · exact own.finish_other here _

-- of a key that no other transaction names the ends of all are the end of this one
theorem TxMap.Own.settle (own : t.Own i key) (member : i ∈ slots) :
    (t.settle stands slots).objects key = (t.finish i (stands i)).objects key := by
  induction slots generalizing t with
  | nil => cases member
  | cons first rest ih =>
    by_cases here : i = first
    · subst here
      exact (own.finish i _).settle_closed (by rw [finish_txs, if_pos rfl])
    · have later : ((t.finish first (stands first)).settle stands rest).objects key =
          ((t.finish first (stands first)).finish i (stands i)).objects key :=
        ih (own.finish first _) ((List.mem_cons.mp member).resolve_left here)
      refine later.trans (finish_congr ?_ (own.finish_other (Ne.symm here) _))
      rw [finish_txs, if_neg here]

theorem TxMap.Own.next (own : t.Own i key) (spares : action.Spares i key) : (t.next action).Own i key := by
  have edited : ∀ j f, (∀ tx, t.txs j = some tx → j = i ∨ (f tx).made key = none ∧ ∀ c ∈ (f tx).pending, ¬c.Names key) →
      (t.edit j f).Own i key := by
    intro j f goes k other
    by_cases here : k = j
    · subst here
      rw [TxMap.edit, madeBy_set_self, pendingOf_set_self]
      cases there : t.txs k with
      | none => exact ⟨rfl, fun _ => nofun⟩
      | some tx => exact (goes tx there).resolve_left other
    · rw [TxMap.edit, madeBy_set_other _ _ here, pendingOf_set_other _ _ here]
      exact own k other
  have before : ∀ j tx, j ≠ i → t.txs j = some tx → tx.made key = none ∧ ∀ c ∈ tx.pending, ¬c.Names key := by
    intro j tx other there
    rw [← madeBy_eq there, ← pendingOf_eq there]
    exact own j other
  have more : ∀ (tx : Tx K V) c, (∀ c ∈ tx.pending, ¬c.Names key) → ¬c.Names key →
      ∀ c' ∈ tx.pending ++ [c], ¬c'.Names key := by
    intro tx c old new c' member
    rcases List.mem_append.mp member with there | there
    · exact old c' there
    · rwa [List.mem_singleton.mp there]
  cases action with
  | begin j =>
    intro k other
    by_cases here : k = j
    · subst here
      rw [TxMap.next, madeBy_set_self, pendingOf_set_self]
      exact ⟨rfl, fun _ => nofun⟩
    · rw [TxMap.next, madeBy_set_other _ _ here, pendingOf_set_other _ _ here]
      exact own k other
  | create j k value change =>
    refine (edited j (fun tx => tx.create k value change) fun tx there => ?_).congr fun _ _ => rfl
    by_cases mine : j = i
    · exact Or.inl mine
    · obtain ⟨unmade, unnamed⟩ := before j tx mine there
      obtain ⟨other_key, spared⟩ := spares.resolve_left mine
      exact Or.inr ⟨(Function.update_of_ne (Ne.symm other_key) _ _).trans unmade, more tx change unnamed spared⟩
  | defer j change =>
    refine edited j (fun tx => tx.defer change) fun tx there => ?_
    by_cases mine : j = i
    · exact Or.inl mine
    · obtain ⟨unmade, unnamed⟩ := before j tx mine there
      exact Or.inr ⟨unmade, more tx change unnamed (spares.resolve_left mine)⟩
  | commit j =>
    refine edited j Tx.commit fun tx there => ?_
    by_cases mine : j = i
    · exact Or.inl mine
    · exact Or.inr (before j tx mine there)
  | execute j => exact own.finish j true
  | abort j => exact own.finish j false
  | alone change => exact own

end Owned

end DeferredLog
