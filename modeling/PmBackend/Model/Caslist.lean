import PmBackend.Shared.RangeList
import Mathlib.Data.Int.Init

set_option autoImplicit false

namespace PmBackend

open RangeList

@[irreducible] def u64 (n : Nat) : Nat := n % 2 ^ 64

@[irreducible] def sub64 (a b : Nat) : Nat := (2 ^ 64 + a - b) % 2 ^ 64

theorem u64_of_lt {n : Nat} (small : n < 2 ^ 64) : u64 n = n := by
  unfold u64
  exact Nat.mod_eq_of_lt small

theorem u64_lt (n : Nat) : u64 n < 2 ^ 64 := by
  unfold u64
  exact Nat.mod_lt _ (by decide)

theorem sub64_of_le {a b : Nat} (le : b ≤ a) (small : a < 2 ^ 64) : sub64 a b = a - b := by
  unfold sub64
  omega

def ssize (n : Int) : Int := n.bmod (2 ^ 64)

-- a `caslist_link`; a chain of links is a list of them
abbrev CaslistLink := Range

-- the mutex has no field: every function below runs while holding it
structure Caslist where
  size : Int
  begin : Nat
  end_ : Nat
  next : List CaslistLink
  deriving DecidableEq, Repr

-- `none` is the NULL pointer
def caslistNew (begin end_ : Nat) : Option Caslist :=
  if begin > end_ ∨ (begin = 0 ∧ end_ > 0) then none
  else some
    { size := if begin = 0 ∧ end_ = 0 then 0 else ssize (u64 (sub64 end_ begin + 1))
      begin := begin
      end_ := end_
      next := [] }

-- what `caslist_pop` leaves in its result, in `*val` and in the list
structure Popped where
  ret : Nat
  val : Nat
  list : Option Caslist

-- takes the first number out of the head range; a depleted range is replaced by the next one
def Caslist.advance (list : Caslist) : Caslist :=
  let begin := u64 (list.begin + 1)
  if begin > list.end_ then
    match list.next with
    | link :: more => { list with begin := link.begin, end_ := link.end_, next := more }
    | [] => { list with begin := 0, end_ := 0 }
  else { list with begin := begin }

def caslistPop (list : Option Caslist) (val : Nat) : Popped :=
  match list with
  | none => ⟨1, val, none⟩
  | some list =>
    if list.begin = 0 ∧ list.end_ = 0 then ⟨1, 0, some list⟩
    else ⟨0, list.begin, some { list.advance with size := ssize (list.size - 1) }⟩

-- extends a range by the number after it, and merges it with the next range when they touch
def extendRight (link : CaslistLink) (next : List CaslistLink) : List CaslistLink :=
  let end_ := u64 (link.end_ + 1)
  match next with
  | [] => [⟨link.begin, end_⟩]
  | link' :: more =>
    if u64 (end_ + 1) = link'.begin then ⟨link.begin, link'.end_⟩ :: more
    else ⟨link.begin, end_⟩ :: link' :: more

-- `_caslist_put` on the chain `link :: next`
def caslistPut (link : CaslistLink) (next : List CaslistLink) (val : Nat) :
    List CaslistLink × Bool :=
  if val ≥ link.begin ∧ val ≤ link.end_ then (link :: next, false)
  else if val = sub64 link.begin 1 then (⟨sub64 link.begin 1, link.end_⟩ :: next, true)
  else if val = u64 (link.end_ + 1) then (extendRight link next, true)
  else
    match next with
    | [] => ([link, ⟨val, val⟩], true)
    | link' :: more =>
      if val < sub64 link'.begin 1 then (link :: ⟨val, val⟩ :: link' :: more, true)
      else
        let put := caslistPut link' more val
        (link :: put.1, put.2)

def Caslist.push (list : Caslist) (val : Nat) : Caslist :=
  let grown := ssize (list.size + 1)
  if list.begin ≤ val ∧ list.end_ ≥ val then list
  else if list.begin = 0 ∧ list.end_ = 0 then { list with begin := val, end_ := val, size := grown }
  else if val = sub64 list.begin 1 then
    { list with begin := sub64 list.begin 1, size := grown }
  else if val = u64 (list.end_ + 1) then
    match extendRight ⟨list.begin, list.end_⟩ list.next with
    | head :: next => { size := grown, begin := head.begin, end_ := head.end_, next := next }
    | [] => list
  else if val < sub64 list.begin 1 then
    { size := grown, begin := val, end_ := val, next := ⟨list.begin, list.end_⟩ :: list.next }
  else
    match list.next with
    | [] => { list with next := [⟨val, val⟩], size := grown }
    | link :: more =>
      if val < sub64 link.begin 1 then
        { list with next := ⟨val, val⟩ :: link :: more, size := grown }
      else
        let put := caslistPut link more val
        { list with next := put.1, size := if put.2 then grown else list.size }

def caslistPush (list : Option Caslist) (val : Nat) : Option Caslist :=
  match list with
  | none => none
  | some list => some (if val = 0 then list else list.push val)

def caslistSize (list : Option Caslist) : Int :=
  match list with
  | none => 0
  | some list => list.size

end PmBackend
