import Mathlib.Data.Set.Lattice
import Mathlib.Order.CompletePartialOrder
import Mathlib.Tactic.Common
import Mathlib.Tactic.Ring

set_option autoImplicit false

namespace ByteMemory

abbrev Mem := Nat → UInt8

def Mem.write (m : Mem) (addr : Nat) (bytes : List UInt8) : Mem := fun x =>
  if addr ≤ x ∧ x < addr + bytes.length then bytes.getD (x - addr) 0 else m x

def Mem.read (m : Mem) (addr len : Nat) : List UInt8 :=
  (List.range len).map fun i => m (addr + i)

-- the `width` low bytes of a number, least significant first
def encode : Nat → Nat → List UInt8
  | 0, _ => []
  | width + 1, value => UInt8.ofNat value :: encode width (value / 256)

def decode : List UInt8 → Nat
  | [] => 0
  | byte :: rest => byte.toNat + 256 * decode rest

def Mem.word (m : Mem) (addr width : Nat) : Nat := decode (m.read addr width)

@[simp] theorem length_encode (width value : Nat) : (encode width value).length = width := by
  induction width generalizing value with
  | zero => rfl
  | succ width ih => simp [encode, ih]

theorem decode_encode (width value : Nat) : decode (encode width value) = value % 256 ^ width := by
  induction width generalizing value with
  | zero => simp [encode, decode, Nat.mod_one]
  | succ width ih =>
    have low : (UInt8.ofNat value).toNat = value % 256 := by simp
    simp only [encode, decode, ih, low]
    rw [Nat.pow_succ, Nat.mul_comm (256 ^ width) 256, Nat.mod_mul]

theorem decode_lt (bytes : List UInt8) : decode bytes < 256 ^ bytes.length := by
  induction bytes with
  | nil => simp [decode]
  | cons byte rest ih =>
    have small : byte.toNat < 256 := byte.toNat_lt
    simp only [decode, List.length_cons, Nat.pow_succ]
    omega

@[simp] theorem length_read (m : Mem) (addr len : Nat) : (m.read addr len).length = len := by
  simp [Mem.read]

theorem getElem_read (m : Mem) (addr len i : Nat) (bound : i < (m.read addr len).length) :
    (m.read addr len)[i] = m (addr + i) := by
  simp [Mem.read]

theorem word_lt (m : Mem) (addr width : Nat) : m.word addr width < 256 ^ width := by
  simpa [Mem.word] using decode_lt (m.read addr width)

theorem write_outside (m : Mem) (addr : Nat) (bytes : List UInt8) (x : Nat)
    (outside : x < addr ∨ addr + bytes.length ≤ x) : m.write addr bytes x = m x := by
  have missed : ¬(addr ≤ x ∧ x < addr + bytes.length) := by omega
  simp [Mem.write, missed]

theorem write_inside (m : Mem) (addr : Nat) (bytes : List UInt8) (i : Nat)
    (bound : i < bytes.length) : m.write addr bytes (addr + i) = bytes[i] := by
  simp [Mem.write, bound]

@[simp] theorem write_nil (m : Mem) (addr : Nat) : m.write addr [] = m := by
  funext x
  exact write_outside m addr [] x (by simp; omega)

theorem read_congr (m m' : Mem) (addr len : Nat)
    (same : ∀ x, addr ≤ x → x < addr + len → m' x = m x) : m'.read addr len = m.read addr len := by
  apply List.ext_getElem
  · simp
  · intro i _ bound
    simp only [length_read] at bound
    simp only [getElem_read]
    exact same _ (by omega) (by omega)

theorem byte_of_read {m m' : Mem} {addr len : Nat} (same : m'.read addr len = m.read addr len) {k : Nat}
    (below : k < len) : m' (addr + k) = m (addr + k) := by
  have byte := List.getElem_of_eq same (i := k) (by rw [length_read]; exact below)
  rwa [getElem_read, getElem_read] at byte

theorem word_congr (m m' : Mem) (addr width : Nat)
    (same : ∀ x, addr ≤ x → x < addr + width → m' x = m x) :
    m'.word addr width = m.word addr width := by
  rw [Mem.word, Mem.word, read_congr m m' addr width same]

@[simp] theorem read_write_same (m : Mem) (addr : Nat) (bytes : List UInt8) :
    (m.write addr bytes).read addr bytes.length = bytes := by
  apply List.ext_getElem
  · simp
  · intro i _ bound
    rw [getElem_read, write_inside m addr bytes i bound]

theorem read_write_disjoint (m : Mem) (addr : Nat) (bytes : List UInt8) (start len : Nat)
    (apart : addr + bytes.length ≤ start ∨ start + len ≤ addr) :
    (m.write addr bytes).read start len = m.read start len :=
  read_congr m _ start len fun x _ _ => write_outside m addr bytes x (by omega)

theorem word_write_same (m : Mem) (addr width value : Nat) :
    (m.write addr (encode width value)).word addr width = value % 256 ^ width := by
  have bytes := read_write_same m addr (encode width value)
  rw [length_encode] at bytes
  rw [Mem.word, bytes, decode_encode]

theorem word_write_disjoint (m : Mem) (addr : Nat) (bytes : List UInt8) (start width : Nat)
    (apart : addr + bytes.length ≤ start ∨ start + width ≤ addr) :
    (m.write addr bytes).word start width = m.word start width := by
  rw [Mem.word, read_write_disjoint m addr bytes start width apart, Mem.word]

theorem read_zeros (m : Mem) (addr n start len : Nat) (lower : addr ≤ start)
    (upper : start + len ≤ addr + n) :
    (m.write addr (List.replicate n 0)).read start len = List.replicate len 0 := by
  apply List.ext_getElem
  · simp
  · intro i _ bound
    simp only [List.length_replicate] at bound
    have inside := write_inside m addr (List.replicate n 0) (start + i - addr) (by simp; omega)
    rw [getElem_read]
    rw [show addr + (start + i - addr) = start + i by omega] at inside
    simpa using inside

theorem decode_zeros (n : Nat) : decode (List.replicate n 0) = 0 := by
  induction n with
  | zero => rfl
  | succ n ih => simp [List.replicate_succ, decode, ih]

theorem word_zeros (m : Mem) (addr n start width : Nat) (lower : addr ≤ start)
    (upper : start + width ≤ addr + n) :
    (m.write addr (List.replicate n 0)).word start width = 0 := by
  rw [Mem.word, read_zeros m addr n start width lower upper, decode_zeros]

theorem word_of_zeros (m : Mem) (addr width : Nat)
    (zeros : ∀ x, addr ≤ x → x < addr + width → m x = 0) : m.word addr width = 0 := by
  have bytes : m.read addr width = List.replicate width 0 := by
    apply List.ext_getElem
    · simp
    · intro k first second
      rw [length_read] at first
      rw [getElem_read, List.getElem_replicate]
      exact zeros _ (by omega) (by omega)
  rw [Mem.word, bytes, decode_zeros]

theorem word_succ (m : Mem) (addr width : Nat) :
    m.word addr (width + 1) = (m addr).toNat + 256 * m.word (addr + 1) width := by
  simp only [Mem.word, Mem.read, List.range_succ_eq_map, List.map_cons, List.map_map, decode, Nat.add_zero]
  congr 4
  funext i
  simp only [Function.comp_apply, Nat.add_right_comm, Nat.succ_eq_add_one, Nat.add_assoc]

theorem write_zeros (m : Mem) (addr len x : Nat) :
    m.write addr (List.replicate len 0) x = if addr ≤ x ∧ x < addr + len then 0 else m x := by
  unfold Mem.write
  simp only [List.length_replicate]
  split
  · rw [List.getD_eq_getElem?_getD, List.getElem?_replicate]
    split <;> rfl
  · rfl

theorem word_le (m m' : Mem) (addr width : Nat)
    (faded : ∀ x, addr ≤ x → x < addr + width → m' x = m x ∨ m' x = 0) : m'.word addr width ≤ m.word addr width := by
  induction width generalizing addr with
  | zero => exact le_refl _
  | succ width ih =>
    have rest := ih (addr + 1) fun x lower upper => faded x (by omega) (by omega)
    have first : (m' addr).toNat ≤ (m addr).toNat := by
      rcases faded addr (le_refl _) (by omega) with same | zero
      · rw [same]
      · rw [zero]
        exact Nat.zero_le _
    rw [word_succ, word_succ]
    omega

theorem zeros_of_word (m : Mem) (addr width : Nat) (zero : m.word addr width = 0) (x : Nat) (lower : addr ≤ x)
    (upper : x < addr + width) : m x = 0 := by
  induction width generalizing addr with
  | zero => omega
  | succ width ih =>
    rw [word_succ] at zero
    by_cases first : x = addr
    · rw [first]
      exact UInt8.toNat_inj.mp (by simpa using (by omega : (m addr).toNat = 0))
    · exact ih (addr + 1) (by omega) (by omega) (by omega)

-- the addresses of `len` bytes from `addr` on
def span (addr len : Nat) : Set Nat := {x | addr ≤ x ∧ x < addr + len}

@[simp] theorem mem_span (addr len x : Nat) : x ∈ span addr len ↔ addr ≤ x ∧ x < addr + len := Iff.rfl

-- frame condition: `m'` differs from `m` at addresses of `area` only
def ChangedIn (area : Set Nat) (m m' : Mem) : Prop := ∀ x, x ∉ area → m' x = m x

theorem ChangedIn.refl (area : Set Nat) (m : Mem) : ChangedIn area m m := fun _ _ => rfl

theorem ChangedIn.trans {area : Set Nat} {m₁ m₂ m₃ : Mem} (first : ChangedIn area m₁ m₂)
    (second : ChangedIn area m₂ m₃) : ChangedIn area m₁ m₃ :=
  fun x outside => (second x outside).trans (first x outside)

theorem ChangedIn.mono {area area' : Set Nat} {m m' : Mem} (changed : ChangedIn area m m')
    (wider : area ⊆ area') : ChangedIn area' m m' :=
  fun x outside => changed x fun inside => outside (wider inside)

theorem ChangedIn.write (area : Set Nat) (m : Mem) (addr : Nat) (bytes : List UInt8)
    (inside : span addr bytes.length ⊆ area) : ChangedIn area m (m.write addr bytes) := by
  intro x outside
  apply write_outside
  by_contra covered
  exact outside (inside ⟨by omega, by omega⟩)

theorem span_subset {addr len start size : Nat} (lower : start ≤ addr) (upper : addr + len ≤ start + size) :
    span addr len ⊆ span start size := by
  intro x inside
  simp only [mem_span] at inside ⊢
  omega

theorem span_subset_iff {addr len start size : Nat} :
    span addr len ⊆ span start size ↔ len = 0 ∨ (start ≤ addr ∧ addr + len ≤ start + size) := by
  constructor
  · intro inside
    rcases Nat.eq_zero_or_pos len with empty | positive
    · exact Or.inl empty
    · have first := inside (show addr ∈ span addr len by simp only [mem_span]; omega)
      have last := inside (show addr + len - 1 ∈ span addr len by simp only [mem_span]; omega)
      simp only [mem_span] at first last
      omega
  · rintro (rfl | ⟨lower, upper⟩)
    · intro x inside
      simp only [mem_span] at inside
      omega
    · exact span_subset lower upper

theorem ChangedIn.thenWrite {area : Set Nat} {m m' : Mem} (changed : ChangedIn area m m') (addr : Nat)
    (bytes : List UInt8) (inside : span addr bytes.length ⊆ area) :
    ChangedIn area m (m'.write addr bytes) :=
  changed.trans (ChangedIn.write area m' addr bytes inside)

theorem ChangedIn.thenEncode {start size : Nat} {m m' : Mem} (changed : ChangedIn (span start size) m m')
    (addr width value : Nat) (lower : start ≤ addr) (upper : addr + width ≤ start + size) :
    ChangedIn (span start size) m (m'.write addr (encode width value)) :=
  changed.thenWrite addr _ (span_subset lower (by rwa [length_encode]))

theorem ChangedIn.read {area : Set Nat} {m m' : Mem} (changed : ChangedIn area m m')
    (start len : Nat) (apart : ∀ x ∈ area, x < start ∨ start + len ≤ x) :
    m'.read start len = m.read start len := by
  apply read_congr
  intro x lower upper
  apply changed
  intro member
  have := apart x member
  omega

theorem ChangedIn.word {area : Set Nat} {m m' : Mem} (changed : ChangedIn area m m')
    (start width : Nat) (apart : ∀ x ∈ area, x < start ∨ start + width ≤ x) :
    m'.word start width = m.word start width := by
  rw [Mem.word, Mem.word, changed.read start width apart]

theorem ChangedIn.word_apart {start size : Nat} {m m' : Mem} (changed : ChangedIn (span start size) m m')
    {addr width : Nat} (apart : addr + width ≤ start ∨ start + size ≤ addr) :
    m'.word addr width = m.word addr width := by
  refine changed.word addr width fun x inside => ?_
  rw [mem_span] at inside
  omega

def AgreeOn (area : Set Nat) (m m' : Mem) : Prop := ∀ x ∈ area, m' x = m x

theorem AgreeOn.refl (area : Set Nat) (m : Mem) : AgreeOn area m m := fun _ _ => rfl

theorem AgreeOn.mono {area area' : Set Nat} {m m' : Mem} (agree : AgreeOn area m m')
    (narrower : area' ⊆ area) : AgreeOn area' m m' := fun x inside => agree x (narrower inside)

theorem AgreeOn.read {area : Set Nat} {m m' : Mem} (agree : AgreeOn area m m') {addr len : Nat}
    (inside : span addr len ⊆ area) : m'.read addr len = m.read addr len :=
  read_congr _ _ _ _ fun x lower upper => agree x (inside ⟨lower, upper⟩)

theorem AgreeOn.word {area : Set Nat} {m m' : Mem} (agree : AgreeOn area m m') {addr width : Nat}
    (inside : span addr width ⊆ area) : m'.word addr width = m.word addr width :=
  word_congr _ _ _ _ fun x lower upper => agree x (inside ⟨lower, upper⟩)

theorem AgreeOn.write {area : Set Nat} {m m' : Mem} (agree : AgreeOn area m m') (addr : Nat)
    (bytes : List UInt8) : AgreeOn area (m.write addr bytes) (m'.write addr bytes) := by
  intro x inside
  unfold Mem.write
  split
  · rfl
  · exact agree x inside

end ByteMemory
