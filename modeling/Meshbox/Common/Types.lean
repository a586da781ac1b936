/-
This file fixes the byte-array types of package common that the models share:
a hash is thirty-two bytes and an address twenty, as common.Hash and
common.Address are Go arrays of those lengths. Addresses form a finite type, so
that a statement can speak of all accounts at once, such as the total of their
balances.
-/

import Mathlib.Data.Fintype.Pi
import Mathlib.Data.FinEnum

namespace Meshbox

/-- common.Hash: a Keccak-256 digest. -/
abbrev Hash := Vector UInt8 32

/-- common.Address: an account address. -/
abbrev Address := Vector UInt8 20

/-- A byte array of length n is a function from its indices to bytes. -/
def vectorEquivFun (n : Nat) : (Fin n → UInt8) ≃ Vector UInt8 n where
  toFun bytes := Vector.ofFn bytes
  invFun vector := fun index => vector[index]
  left_inv bytes := by
    funext index
    simp
  right_inv vector := by
    ext index bound
    simp

instance fintypeBytes (n : Nat) : Fintype (Vector UInt8 n) :=
  Fintype.ofEquiv _ (vectorEquivFun n)

end Meshbox
