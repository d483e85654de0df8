import PmBackend.Stores

set_option autoImplicit false

namespace PmBackend

open ByteMemory

-- the memory after events, latest first
def afterEvents (m : Mem) : List Event → Mem
  | [] => m
  | .store addr bytes :: before => (afterEvents m before).write addr bytes
  | .persist _ _ :: before => afterEvents m before
  | .weakPersist _ _ :: before => afterEvents m before

-- `q` is `p` after some more events, and its memory is what they store
def Pool.Runs (p q : Pool) : Prop := ∃ later, q.events = later ++ p.events ∧ q.mem = afterEvents p.mem later

-- the memory when the machine stops on the way from `p` to `q`: the first stores are done, and perhaps the first
-- bytes of the next one
def StopsWith (p q : Pool) (m : Mem) : Prop :=
  ∃ done rest, q.events = rest ++ done ++ p.events ∧
    (m = afterEvents p.mem done ∨ ∃ later addr bytes count, rest = later ++ [.store addr bytes] ∧
      m = (afterEvents p.mem done).write addr (bytes.take count))

-- what holds of the memory wherever the machine stops on the way
structure Throughout (P : Mem → Prop) (p q : Pool) : Prop where
  runs : p.Runs q
  stops : ∀ m, StopsWith p q m → P m

section Events

variable {p q r : Pool} {m : Mem} {P Q : Mem → Prop}

theorem afterEvents_append (m : Mem) (later before : List Event) :
    afterEvents m (later ++ before) = afterEvents (afterEvents m before) later := by
  induction later with
  | nil => rfl
  | cons event later ih =>
    cases event with
    | store addr bytes => simp only [List.cons_append, afterEvents, ih]
    | persist addr len => simpa only [List.cons_append, afterEvents] using ih
    | weakPersist addr len => simpa only [List.cons_append, afterEvents] using ih

theorem Pool.Runs.refl (p : Pool) : p.Runs p := ⟨[], rfl, rfl⟩

theorem Pool.Runs.trans (first : p.Runs q) (second : q.Runs r) : p.Runs r := by
  obtain ⟨between, events, mem⟩ := first
  obtain ⟨later, events', mem'⟩ := second
  exact ⟨later ++ between, by rw [events', events, List.append_assoc], by rw [mem', mem, afterEvents_append]⟩

theorem StopsWith.split (first : p.Runs q) (second : q.Runs r) (stops : StopsWith p r m) :
    StopsWith p q m ∨ StopsWith q r m := by
  obtain ⟨between, events, mem⟩ := first
  obtain ⟨after, events', -⟩ := second
  obtain ⟨done, rest, all, memory⟩ := stops
  have cut : after ++ between = rest ++ done := by
    rw [events', events, ← List.append_assoc] at all
    exact List.append_cancel_right all
  rcases List.append_eq_append_iff.mp cut with ⟨late, rest_eq, between_eq⟩ | ⟨more, after_eq, done_eq⟩
  · -- the stop is not behind `q`
    rcases List.eq_nil_or_concat late with nothing | ⟨last, event, late_eq⟩
    · rw [nothing, List.nil_append] at between_eq
      rw [nothing, List.append_nil] at rest_eq
      subst between_eq rest_eq
      right
      refine ⟨[], rest, by rw [events', List.append_nil], ?_⟩
      rw [← mem] at memory
      exact memory
    · left
      refine ⟨done, late, by rw [events, between_eq], memory.imp_right ?_⟩
      rintro ⟨later, addr, bytes, count, same, partly⟩
      rw [rest_eq, late_eq, List.concat_eq_append, ← List.append_assoc] at same
      have store := (List.append_inj' same rfl).2
      exact ⟨last, addr, bytes, count, by rw [late_eq, List.concat_eq_append, store], partly⟩
  · right
    refine ⟨more, rest, by rw [events', after_eq], ?_⟩
    rw [done_eq, afterEvents_append, ← mem] at memory
    exact memory

theorem StopsWith.nowhere (stops : StopsWith p p m) : m = p.mem := by
  obtain ⟨done, rest, all, memory⟩ := stops
  have nothing : rest ++ done = [] := by
    have lengths := congrArg List.length all
    simp only [List.length_append] at lengths
    exact List.eq_nil_of_length_eq_zero (by simp only [List.length_append]; omega)
  obtain ⟨rfl, rfl⟩ := List.append_eq_nil_iff.mp nothing
  rcases memory with same | ⟨later, addr, bytes, count, impossible, -⟩
  · exact same
  · exact absurd impossible.symm (List.append_ne_nil_of_right_ne_nil _ (List.cons_ne_nil _ _))

theorem StopsWith.single {event : Event} (events : q.events = event :: p.events) (stops : StopsWith p q m) :
    m = p.mem ∨ m = afterEvents p.mem [event] ∨
      ∃ addr bytes count, event = .store addr bytes ∧ m = p.mem.write addr (bytes.take count) := by
  obtain ⟨done, rest, all, memory⟩ := stops
  have cut : [event] = rest ++ done := by
    rw [events, ← List.singleton_append] at all
    exact List.append_cancel_right all
  rcases List.append_eq_singleton_iff.mp cut.symm with ⟨rfl, rfl⟩ | ⟨rfl, rfl⟩
  · rcases memory with same | ⟨later, addr, bytes, count, impossible, -⟩
    · exact Or.inr (Or.inl same)
    · exact absurd impossible.symm (List.append_ne_nil_of_right_ne_nil _ (List.cons_ne_nil _ _))
  · rcases memory with same | ⟨later, addr, bytes, count, same, partly⟩
    · exact Or.inl same
    · have store := (List.append_inj' (show [] ++ [event] = later ++ [_] from same) rfl).2
      exact Or.inr (Or.inr ⟨addr, bytes, count, List.singleton_injective store, partly⟩)

theorem Throughout.last (throughout : Throughout P p q) : P q.mem := by
  obtain ⟨later, events, mem⟩ := throughout.runs
  exact throughout.stops _ ⟨later, [], by rw [List.nil_append, events], Or.inl mem⟩

theorem Throughout.mono (throughout : Throughout P p q) (weaker : ∀ m, P m → Q m) : Throughout Q p q :=
  ⟨throughout.runs, fun m stops => weaker m (throughout.stops m stops)⟩

theorem Throughout.refl (start : P p.mem) : Throughout P p p :=
  ⟨Pool.Runs.refl p, fun m stops => by rw [stops.nowhere]; exact start⟩

theorem Throughout.trans (first : Throughout P p q) (second : Throughout P q r) : Throughout P p r :=
  ⟨first.runs.trans second.runs, fun m stops => (stops.split first.runs second.runs).elim (first.stops m)
    (second.stops m)⟩

theorem Throughout.store (addr : Nat) (bytes : List UInt8)
    (parts : ∀ count, P (p.mem.write addr (bytes.take count))) : Throughout P p (p.store addr bytes) := by
  refine ⟨⟨[.store addr bytes], rfl, rfl⟩, fun m stops => ?_⟩
  rcases stops.single rfl with rfl | rfl | ⟨addr', bytes', count, same, rfl⟩
  · have none_done := parts 0
    rwa [List.take_zero, write_nil] at none_done
  · have all_done := parts bytes.length
    rwa [List.take_length] at all_done
  · cases same
    exact parts count

theorem Throughout.emit (throughout : Throughout P p q) {event : Event}
    (quiet : ∀ addr bytes, event ≠ .store addr bytes) : Throughout P p (q.emit event) := by
  have unchanged : afterEvents q.mem [event] = q.mem := by
    cases event with
    | store addr bytes => exact absurd rfl (quiet addr bytes)
    | persist addr len => rfl
    | weakPersist addr len => rfl
  refine throughout.trans ⟨⟨[event], rfl, unchanged.symm⟩, fun m stops => ?_⟩
  rcases stops.single rfl with rfl | rfl | ⟨addr, bytes, count, same, -⟩
  · exact throughout.last
  · rw [unchanged]
    exact throughout.last
  · exact absurd same (quiet addr bytes)

theorem Throughout.persisted (throughout : Throughout P p q) (h : Handle) (obj size : Nat) :
    Throughout P p (backendPersist h q obj size) := by
  unfold backendPersist
  split
  · exact throughout.emit fun _ _ => nofun
  · split
    · exact throughout
    · exact throughout.emit fun _ _ => nofun
  · exact throughout

theorem Throughout.txPersist (throughout : Throughout P p q) (h : Handle) (txId size : Nat) :
    Throughout P p (backendTxPersist h q txId size) := by
  unfold backendTxPersist
  split
  · exact throughout.emit fun _ _ => nofun
  · split
    · exact throughout
    · exact throughout.persisted h _ _

end Events

end PmBackend
