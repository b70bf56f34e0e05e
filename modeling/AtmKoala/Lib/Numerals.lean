import Mathlib.Algebra.Order.Ring.Int

/-!
Numerals in the index types of tables.

A numeral of `Fin n` needs that `n` is not zero. The sizes of the kernel's tables get
one proof each here, so that a numeral means the same term wherever it is written.
-/

namespace AtmKoala.Lib

instance neZero_three : NeZero 3 := ⟨by decide⟩
instance neZero_four : NeZero 4 := ⟨by decide⟩
instance neZero_five : NeZero 5 := ⟨by decide⟩
instance neZero_fifteen : NeZero 15 := ⟨by decide⟩
instance neZero_sixteen : NeZero 16 := ⟨by decide⟩
instance neZero_thirtyTwo : NeZero 32 := ⟨by decide⟩
instance neZero_sixtyFour : NeZero 64 := ⟨by decide⟩
instance neZero_byte : NeZero 256 := ⟨by decide⟩
instance neZero_kilo : NeZero 1024 := ⟨by decide⟩

end AtmKoala.Lib
