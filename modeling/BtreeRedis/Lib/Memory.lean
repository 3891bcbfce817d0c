import BtreeRedis.Lib.Byte

/-!
# Byte memory

A memory is read and written in pieces, and a piece keeps its contents under writes elsewhere.
Numbers of 16 bits have their low byte first. A record is such a number, which is the length of
what stands behind it.
-/

namespace BtreeRedis.Memory

section
variable {β : Type*} {m m' : ℕ → β} {offset len a : ℕ} {s : List β}

def load (m : ℕ → β) (offset len : ℕ) : List β := (List.range len).map fun i => m (offset + i)

def store (m : ℕ → β) (offset : ℕ) (s : List β) : ℕ → β := fun a =>
  if h : offset ≤ a ∧ a - offset < s.length then s.get ⟨a - offset, h.2⟩ else m a

def SameOn (m m' : ℕ → β) (low high : ℕ) : Prop := ∀ a, low ≤ a → a < high → m' a = m a

@[simp] theorem length_load : (load m offset len).length = len := by
  rw [load, List.length_map, List.length_range]

theorem SameOn.load (h : SameOn m m' offset (offset + len)) :
    Memory.load m' offset len = Memory.load m offset len := by
  apply List.map_congr_left
  intro i hi
  exact h (offset + i) (Nat.le_add_right _ _) (Nat.add_lt_add_left (List.mem_range.mp hi) offset)

theorem SameOn.sub {low high low' high' : ℕ} (h : SameOn m m' low high) (hl : low ≤ low') (hh : high' ≤ high) :
    SameOn m m' low' high' := fun a ha hlt => h a (hl.trans ha) (hlt.trans_le hh)

theorem SameOn.trans {m'' : ℕ → β} {low high : ℕ} (h : SameOn m m' low high) (h' : SameOn m' m'' low high) :
    SameOn m m'' low high := fun a ha hlt => (h' a ha hlt).trans (h a ha hlt)

theorem store_outside (h : a < offset ∨ offset + s.length ≤ a) : store m offset s a = m a :=
  dif_neg fun hc => by omega

theorem store_sameOn {low high : ℕ} (h : high ≤ offset ∨ offset + s.length ≤ low) :
    SameOn m (store m offset s) low high := fun _ ha hlt => store_outside (by omega)

theorem load_store : load (store m offset s) offset s.length = s := by
  apply List.ext_get
  · exact length_load
  · intro i hi hs
    have hin : offset ≤ offset + i ∧ offset + i - offset < s.length := by omega
    simp only [load, store, List.get_eq_getElem, List.getElem_map, List.getElem_range, dif_pos hin]
    congr 1
    omega

end

variable {m m' : ℕ → Fin 256} {offset x : ℕ} {s : List (Fin 256)}

def load16 (m : ℕ → Fin 256) (offset : ℕ) : ℕ := (m offset).val + 256 * (m (offset + 1)).val

def store16 (m : ℕ → Fin 256) (offset x : ℕ) : ℕ → Fin 256 :=
  store m offset [Fin.ofNat 256 x, Fin.ofNat 256 (x / 256)]

theorem SameOn.load16 (h : SameOn m m' offset (offset + 2)) : Memory.load16 m' offset = Memory.load16 m offset := by
  rw [Memory.load16, Memory.load16, h offset le_rfl (by omega), h (offset + 1) (by omega) (by omega)]

theorem load16_store16 (h : x < 2 ^ 16) : load16 (store16 m offset x) offset = x := by
  have h0 : store16 m offset x offset = Fin.ofNat 256 x := by
    rw [store16, store, dif_pos ⟨le_rfl, by simp⟩]
    simp
  have h1 : store16 m offset x (offset + 1) = Fin.ofNat 256 (x / 256) := by
    rw [store16, store, dif_pos ⟨by omega, by simp⟩]
    simp
  rw [load16, h0, h1, Fin.val_ofNat, Fin.val_ofNat]
  omega

def record (m : ℕ → Fin 256) (offset : ℕ) : List (Fin 256) := load m (offset + 2) (load16 m offset)

def putRecord (m : ℕ → Fin 256) (offset : ℕ) (s : List (Fin 256)) : ℕ → Fin 256 :=
  store (store16 m offset s.length) (offset + 2) s

@[simp] theorem length_record : (record m offset).length = load16 m offset := length_load

theorem SameOn.record (h : SameOn m m' offset (offset + 2 + Memory.load16 m offset)) :
    Memory.record m' offset = Memory.record m offset := by
  have hlen : Memory.load16 m' offset = Memory.load16 m offset := (h.sub le_rfl (Nat.le_add_right _ _)).load16
  rw [Memory.record, Memory.record, hlen]
  exact (h.sub (Nat.le_add_right _ _) le_rfl).load

theorem putRecord_sameOn {low high : ℕ} (h : high ≤ offset ∨ offset + 2 + s.length ≤ low) :
    SameOn m (putRecord m offset s) low high := by
  refine SameOn.trans (store_sameOn ?_) (store_sameOn ?_)
  · rw [List.length_cons, List.length_singleton]
    omega
  · omega

theorem load16_putRecord (h : s.length < 2 ^ 16) : load16 (putRecord m offset s) offset = s.length := by
  have hsame : SameOn (store16 m offset s.length) (putRecord m offset s) offset (offset + 2) :=
    store_sameOn (Or.inl le_rfl)
  rw [hsame.load16, load16_store16 h]

theorem record_putRecord (h : s.length < 2 ^ 16) : record (putRecord m offset s) offset = s := by
  rw [record, load16_putRecord h]
  exact load_store

end BtreeRedis.Memory
