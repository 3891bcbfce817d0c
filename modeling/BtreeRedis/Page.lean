import BtreeRedis.Lib.Byte

/-!
# Byte strings, page sizes and faults

Keys, payloads and fences are byte strings compared lexicographically, as
`memcmp` with the length as tie break does. The sizes are those of the x86-64
layout: the packed slot array starts inside the tail padding of the header, so
`slotsOffset` is smaller than `sizeof(BTreeNodeHeader)`.

A call that does not return ends in a `Fault`. Assertions are checked, as in the
build without `NDEBUG`.
-/

namespace BtreeRedis

abbrev Byte := Fin 256
abbrev Bytes := List Byte

inductive Fault
  | abort
  | assertion
  /-- A page-capacity assertion, or a write below the page it is meant for. -/
  | pageOverflow
  /-- Undefined behaviour of the language. -/
  | undefined
  | outOfFuel
  deriving DecidableEq, Repr

def ensure (p : Prop) [Decidable p] (e : Fault) : Except Fault Unit :=
  if p then .ok () else .error e

theorem ensure_of {p : Prop} [Decidable p] (h : p) (e : Fault) : ensure p e = .ok () := if_pos h

section Outcomes
universe u
variable {ε : Type*} {α β : Type u}

theorem bind_eq_ok {x : Except ε α} {f : α → Except ε β} {b : β} :
    (x >>= f) = .ok b ↔ ∃ a, x = .ok a ∧ f a = .ok b := by
  cases x <;> simp [bind, Except.bind]

@[simp] theorem ok_bind (a : α) (f : α → Except ε β) : (Except.ok a >>= f) = f a := rfl

@[simp] theorem error_bind (e : ε) (f : α → Except ε β) :
    ((Except.error e : Except ε α) >>= f) = .error e := rfl

theorem pure_eq_ok {a b : α} : (pure a : Except ε α) = .ok b ↔ a = b := Except.ok.injEq a b ▸ Iff.rfl

theorem ensure_eq_ok {p : Prop} [Decidable p] {e : Fault} {u : Unit} : ensure p e = .ok u ↔ p := by
  by_cases h : p <;> simp [ensure, h]

end Outcomes

@[simp] def pageSize : ℕ := 4096
@[simp] def headerSize : ℕ := 96
@[simp] def slotsOffset : ℕ := 92
@[simp] def slotSize : ℕ := 10
@[simp] def pointerSize : ℕ := 8
@[simp] def hintCount : ℕ := 16
@[simp] def underFullSize : ℕ := pageSize / 4
@[simp] def maxKVSize : ℕ := (pageSize - headerSize - 2 * slotSize) / 3

/-- What a slot's payload is: bytes in a leaf, a child pointer in an inner node. -/
class Payload (π : Type) where
  len : π → ℕ

instance : Payload Bytes := ⟨List.length⟩

end BtreeRedis
