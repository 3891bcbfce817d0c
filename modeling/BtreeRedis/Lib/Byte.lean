import Mathlib

/-!
# Bytes

A byte is a `Fin 256`. What its numerals and the comparison of byte strings rest on is named here
once, so that they elaborate to the same terms wherever they are written.
-/

namespace BtreeRedis.Byte

instance neZero : NeZero 256 := ⟨by decide⟩

instance lawfulBEq : LawfulBEq (List (Fin 256)) := inferInstance

end BtreeRedis.Byte
