import PmBackend.Shared.ByteMemory

set_option autoImplicit false

namespace ByteMemory

structure PartialBytes where
  len : Nat
  byte : Nat → Option UInt8

namespace PartialBytes

def empty : PartialBytes := ⟨0, fun _ => none⟩

def ofBytes (bytes : List UInt8) : PartialBytes := ⟨bytes.length, fun i => bytes[i]?⟩

-- new bytes over the string from `offset` on. A gap behind its end stays unspecified
def overlay (v : PartialBytes) (offset : Nat) (bytes : List UInt8) : PartialBytes where
  len := max v.len (offset + bytes.length)
  byte i :=
    if offset ≤ i ∧ i < offset + bytes.length then bytes[i - offset]?
    else if i < v.len then v.byte i else none

-- the bytes from `addr` on are those of the string, where it specifies them
def HeldAt (v : PartialBytes) (m : Mem) (addr : Nat) : Prop :=
  ∀ i < v.len, ∀ b, v.byte i = some b → m (addr + i) = b

variable {v : PartialBytes} {m m' : Mem} {addr addr' offset : Nat} {bytes : List UInt8}

theorem empty_heldAt (m : Mem) (addr : Nat) : empty.HeldAt m addr := fun i below => absurd below (Nat.not_lt_zero i)

theorem HeldAt.congr (held : v.HeldAt m addr) (same : ∀ i < v.len, m' (addr' + i) = m (addr + i)) :
    v.HeldAt m' addr' := fun i below b byte => (same i below).trans (held i below b byte)

theorem HeldAt.overlaid (held : v.HeldAt m addr)
    (kept : ∀ i < v.len, i < offset ∨ offset + bytes.length ≤ i → m' (addr' + i) = m (addr + i))
    (stored : ∀ i (bound : i < bytes.length), m' (addr' + offset + i) = bytes[i]) :
    (v.overlay offset bytes).HeldAt m' addr' := by
  -- the string was copied, except where the new bytes went
  intro i below b byte
  simp only [overlay] at below byte
  split at byte
  · next inside =>
    obtain ⟨bound, same⟩ := List.getElem?_eq_some_iff.mp byte
    have position : addr' + i = addr' + offset + (i - offset) := by omega
    rw [position, stored _ bound, same]
  · next outside =>
    split at byte
    · next old => rw [kept i old (by omega), held i old b byte]
    · cases byte

theorem HeldAt.write (held : v.HeldAt m addr) (offset : Nat) (bytes : List UInt8) :
    (v.overlay offset bytes).HeldAt (m.write (addr + offset) bytes) addr :=
  held.overlaid (fun i _ outside => write_outside _ _ _ _ (by omega)) fun i bound => write_inside m _ bytes i bound

theorem ofBytes_heldAt (stored : ∀ i (bound : i < bytes.length), m (addr + i) = bytes[i]) :
    (ofBytes bytes).HeldAt m addr := by
  intro i below b byte
  obtain ⟨bound, same⟩ := List.getElem?_eq_some_iff.mp byte
  rw [stored i bound, same]

theorem overlay_len (v : PartialBytes) (offset : Nat) (bytes : List UInt8) :
    (v.overlay offset bytes).len = max v.len (offset + bytes.length) := rfl

theorem empty_overlay (bytes : List UInt8) : empty.overlay 0 bytes = ofBytes bytes := by
  unfold overlay ofBytes empty
  simp only [Nat.zero_max, Nat.zero_add, Nat.not_lt_zero, if_false, PartialBytes.mk.injEq, true_and]
  funext i
  by_cases inside : i < bytes.length
  · rw [if_pos ⟨Nat.zero_le i, inside⟩, Nat.sub_zero]
  · rw [if_neg (by omega), List.getElem?_eq_none (by omega)]

end PartialBytes

end ByteMemory
