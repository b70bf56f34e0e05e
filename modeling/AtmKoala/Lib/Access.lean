import Mathlib.Data.List.GetD
import Mathlib.Tactic.ByContra

/-!
Reads and writes that stay inside a buffer.

A buffer is the list of its bytes. An `Access` is a computation that ends in a value, in a
read or a write outside (`Fault.outside`), or without its fuel (`Fault.stuck`); `bind_ok`
takes one apart that ends in a value.
-/

namespace AtmKoala.Lib

abbrev Bytes : Type := List UInt8

/-- What a computation does that it must not do. -/
inductive Fault where
  | outside
  | stuck
deriving DecidableEq

abbrev Access (α : Type) : Type := Except Fault α

/-- `p[i]`. -/
def byteAt (p : Bytes) (i : Nat) : Access UInt8 :=
  match p[i]? with
  | some b => .ok b
  | none => .error .outside

/-- The `n` bytes at `p + i`. -/
def bytesAt (p : Bytes) (i n : Nat) : Access Bytes :=
  if n = 0 ∨ i + n ≤ p.length then .ok ((p.drop i).take n) else .error .outside

/-- The bytes of a buffer of size `cap`, written behind those that are there. -/
def emit (cap : Nat) (out bytes : Bytes) : Access Bytes :=
  if out.length + bytes.length ≤ cap then .ok (out ++ bytes) else .error .outside

variable {α β : Type} {p out bytes : Bytes} {i n cap : Nat}

theorem bind_ok {x : Access α} {f : α → Access β} {r : β} :
    (x >>= f) = .ok r ↔ ∃ a, x = .ok a ∧ f a = .ok r := by
  cases x with
  | ok a => exact ⟨fun done => ⟨a, rfl, done⟩, fun ⟨_, same, done⟩ => by cases same; exact done⟩
  | error e => exact ⟨nofun, fun ⟨_, none_, _⟩ => nomatch none_⟩

theorem ok_bind {x : Access α} {f : α → Access β} {a : α} (done : x = .ok a) :
    (x >>= f) = f a := by
  rw [done]
  rfl

theorem byteAt_ok (inside : i < p.length) : byteAt p i = .ok (p.getD i 0) := by
  rw [byteAt, List.getElem?_eq_getElem inside, List.getD_eq_getElem p 0 inside]

theorem inside_of_byteAt {b : UInt8} (done : byteAt p i = .ok b) : i < p.length := by
  by_contra outside
  rw [byteAt, List.getElem?_eq_none (Nat.not_lt.mp outside)] at done
  cases done

theorem bytesAt_ok (inside : i + n ≤ p.length) : bytesAt p i n = .ok ((p.drop i).take n) :=
  if_pos (.inr inside)

theorem inside_of_bytesAt {bs : Bytes} (done : bytesAt p i n = .ok bs) :
    n = 0 ∨ i + n ≤ p.length := by
  by_contra outside
  rw [bytesAt, if_neg outside] at done
  cases done

theorem emit_ok (inside : out.length + bytes.length ≤ cap) :
    emit cap out bytes = .ok (out ++ bytes) := if_pos inside

end AtmKoala.Lib
