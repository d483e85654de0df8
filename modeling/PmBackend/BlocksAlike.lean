import PmBackend.LogExecution

set_option autoImplicit false

namespace PmBackend

open ByteMemory

-- a block holds the same object in two memories, up to the bytes of a secret value
structure BlockAlike (h : Handle) (secret : Set Nat) (m m' : Mem) (id obj : Nat) : Prop where
  dead : flch64 m' obj = 0 ↔ flch64 m obj = 0
  name : objectId m' obj = objectId m obj
  ver : version m' obj = version m obj
  key_len : keyLen m' obj = keyLen m obj
  val_len : valLen m' obj = valLen m obj
  key : ∀ k < keyLen m obj, m' (obj + 32 + k) = m (obj + 32 + k)
  value : id ∉ secret → ∀ k < valLen m obj, m' (valueAddr h m id obj + k) = m (valueAddr h m id obj + k)
  blank : flch64 m obj = 0 → valLen m obj = 0

def BlocksAlike (h : Handle) (secret : Set Nat) (m m' : Mem) : Prop :=
  ∀ id obj, backendDirect h.backend id = some obj → BlockAlike h secret m m' id obj

section Blocks

variable {h : Handle} {secret secret' : Set Nat} {m m' n n' : Mem} {id obj : Nat}

theorem BlocksAlike.refl (secret : Set Nat) (blank : ∀ id obj, backendDirect h.backend id = some obj →
    flch64 m obj = 0 → valLen m obj = 0) : BlocksAlike h secret m m :=
  fun id obj direct => ⟨Iff.rfl, rfl, rfl, rfl, rfl, fun _ _ => rfl, fun _ _ _ => rfl, blank id obj direct⟩

theorem BlocksAlike.get (alike : BlocksAlike h secret m m') (id : Nat) : backendGet h m' id = backendGet h m id := by
  unfold backendGet
  cases direct : backendDirect h.backend id with
  | none => rfl
  | some obj => simp only [(alike id obj direct).dead]

theorem BlocksAlike.shown (alike : BlocksAlike h secret m m') (open_ : id ∉ secret) : pmbGet h m' id = pmbGet h m id := by
  unfold pmbGet
  rw [alike.get id]
  cases found : backendGet h m id with
  | error e => rfl
  | ok obj =>
    obtain ⟨-, direct, -⟩ := backendGet_ok.mp found
    have block := alike id obj direct
    have key : m'.read (obj + sizeofDataHdr) (keyLen m obj) = m.read (obj + sizeofDataHdr) (keyLen m obj) :=
      read_congr _ _ _ _ fun x lower upper => by
        obtain ⟨k, rfl⟩ := Nat.exists_eq_add_of_le lower
        exact block.key k (by omega)
    have value : m'.read (valueAddr h m id obj) (valLen m obj) = m.read (valueAddr h m id obj) (valLen m obj) :=
      read_congr _ _ _ _ fun x lower upper => by
        obtain ⟨k, rfl⟩ := Nat.exists_eq_add_of_le lower
        exact block.value open_ k (by omega)
    simp only [block.name, block.key_len, block.val_len, key, valueAddr_congr block.key_len, value]

theorem BlockAlike.frame (alike : BlockAlike h secret m m' id obj) (contained : h.Contained m id obj)
    (direct : backendDirect h.backend id = some obj) (room : 32 ≤ h.backend.blockSize id) (same : Untouched h id m n)
    (same' : Untouched h id m' n') (opened : id ∉ secret' → id ∉ secret) : BlockAlike h secret' n n' id obj := by
  obtain ⟨flch, name, ver, key, val⟩ := same.words direct room
  obtain ⟨flch', name', ver', key', val'⟩ := same'.words direct room
  have addr : valueAddr h n id obj = valueAddr h m id obj := valueAddr_congr key
  have inside : ∀ x, obj ≤ x → x < obj + h.backend.blockSize id → m' x = m x → n' x = n x := by
    intro x lower upper before
    have member : x ∈ h.blockAt id := by
      rw [blockAt_span direct]
      exact ⟨lower, upper⟩
    rw [same x member, same' x member, before]
  have key_fits := contained.zeroed
  have value_fits := contained.fits
  have above := valueAddr_ge h m id obj
  have ends := valueAddr_objectLen h m id obj
  refine ⟨by rw [flch, flch', alike.dead], by rw [name, name', alike.name], by rw [ver, ver', alike.ver],
    by rw [key, key', alike.key_len], by rw [val, val', alike.val_len], fun k below => ?_, fun open_ k below => ?_,
    by rw [flch, val]; exact alike.blank⟩
  · rw [key] at below
    exact inside _ (by omega) (by omega) (alike.key k below)
  · rw [val] at below
    rw [addr]
    exact inside _ (by omega) (by omega) (alike.value (opened open_) k below)

theorem BlocksAlike.log (rooms : h.Rooms) (alike : BlocksAlike h secret m m')
    (contained : ∀ id obj, backendDirect h.backend id = some obj → h.Contained m id obj)
    (changed : ChangedIn h.logArea m n) (changed' : ChangedIn h.logArea m' n') : BlocksAlike h secret n n' :=
  fun id obj direct => (alike id obj direct).frame (contained id obj direct) direct (rooms.room id)
    (ChangedIn.blocks_untouched rooms.toLogLayout changed id) (ChangedIn.blocks_untouched rooms.toLogLayout changed' id)
    fun open_ => open_

theorem BlocksAlike.block (rooms : h.Rooms) (alike : BlocksAlike h secret m m')
    (contained : ∀ id obj, backendDirect h.backend id = some obj → h.Contained m id obj) (alone : h.Alone id)
    (changed : ChangedIn (h.blockAt id ∪ h.logArea) m n) (changed' : ChangedIn (h.blockAt id ∪ h.logArea) m' n')
    (here : ∀ obj, backendDirect h.backend id = some obj → BlockAlike h secret' n n' id obj)
    (rest : ∀ j, j ≠ id → j ∉ secret' → j ∉ secret) : BlocksAlike h secret' n n' := by
  intro j obj direct
  by_cases same : j = id
  · subst same
    exact here obj direct
  · exact (alike j obj direct).frame (contained j obj direct) direct (rooms.room j)
      (ChangedIn.others_untouched rooms.toLogLayout alone changed same)
      (ChangedIn.others_untouched rooms.toLogLayout alone changed' same) (rest j same)

theorem BlocksAlike.reveal (alike : BlocksAlike h secret m m') (same : ∀ id, id ∈ secret → id ∉ secret' →
      ∀ obj, backendDirect h.backend id = some obj → ∀ k < valLen m obj,
        m' (valueAddr h m id obj + k) = m (valueAddr h m id obj + k)) : BlocksAlike h secret' m m' := by
  intro id obj direct
  have block := alike id obj direct
  refine ⟨block.dead, block.name, block.ver, block.key_len, block.val_len, block.key, fun open_ k below => ?_, block.blank⟩
  by_cases member : id ∈ secret
  · exact same id member open_ obj direct k below
  · exact block.value member k below

theorem BlocksAlike.setZero (rooms : h.Rooms) {s s' : Store} (alike : BlocksAlike h secret s.pool.mem s'.pool.mem)
    (contained : ∀ id obj, backendDirect h.backend id = some obj → h.Contained s.pool.mem id obj) (alone : h.Alone id)
    (direct : backendDirect h.backend id = some obj) (rest : ∀ j, j ≠ id → j ∉ secret' → j ∉ secret) :
    BlocksAlike h secret' (s.setZero (some obj)).pool.mem (s'.setZero (some obj)).pool.mem := by
  have hdr : sizeofDataHdr = 32 := rfl
  have fits := (contained id obj direct).zeroed
  have block := alike id obj direct
  have key_len := block.key_len
  have val_len := block.val_len
  have changed := (setZero_changed s obj).mono (span_blockAt direct (le_refl _) (by omega))
  have changed' := (setZero_changed s' obj).mono (span_blockAt direct (le_refl _) (by omega))
  refine alike.block rooms contained alone (changed.mono Set.subset_union_left) (changed'.mono Set.subset_union_left)
    (fun addr here => ?_) rest
  obtain rfl : obj = addr := Option.some.inj (direct.symm.trans here)
  obtain ⟨flch, name, ver, key, val⟩ := setZero_header s obj
  obtain ⟨flch', name', ver', key', val'⟩ := setZero_header s' obj
  exact ⟨by rw [flch, flch'], name'.trans name.symm, ver'.trans ver.symm, key'.trans key.symm, val'.trans val.symm,
    fun k below => by omega, fun _ k below => by omega, fun _ => val⟩

end Blocks

structure StoresAlike (h : Handle) (secret : Set Nat) (s s' : Store) : Prop where
  rest : s' = { s with pool := s'.pool }
  blocks : BlocksAlike h secret s.pool.mem s'.pool.mem

section Stores

variable {h : Handle} {secret : Set Nat} {s s' t t' : Store} {id obj txId : Nat}

theorem StoresAlike.updIdList (alike : StoresAlike h secret s s') : s'.updIdList = s.updIdList := by
  rw [alike.rest]

theorem StoresAlike.release (alike : StoresAlike h secret s s') (id : Nat) :
    StoresAlike h secret (s.release h id) (s'.release h id) := by
  have pools := alike.blocks
  rw [alike.rest]
  unfold Store.release
  split
  · exact ⟨rfl, pools⟩
  · exact ⟨rfl, pools⟩

theorem StoresAlike.setZero (rooms : h.Rooms) (alike : StoresAlike h secret s s')
    (contained : ∀ id obj, backendDirect h.backend id = some obj → h.Contained s.pool.mem id obj) (alone : h.Alone id)
    (direct : backendDirect h.backend id = some obj) :
    StoresAlike h secret (s.setZero (some obj)) (s'.setZero (some obj)) :=
  ⟨by rw [Store.setZero, alike.rest]; rfl, alike.blocks.setZero rooms contained alone direct fun _ _ open_ => open_⟩

end Stores

end PmBackend
