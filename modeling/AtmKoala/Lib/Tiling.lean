import Mathlib.Data.List.Perm.Basic
import Mathlib.Data.List.Chain

/-!
Blocks that fill a stretch of memory one after the other.

A block is a header of `hdr` bytes followed by `size` bytes, free or not. A list of
blocks at an address determines where each of them lies (`places`).

* `allocate` is first fit: the first free block that is large enough is taken, and
  what is left over becomes a block of its own if it is worth it.
* `release` frees the block at an address, `coalesced` joins neighbours.
* Each of them keeps the extent; `used` is what is taken, and `Apart` says that no
  two neighbours are free. A list without used blocks whose neighbours are apart is
  one free block (`Apart.eq_single`).
-/

namespace AtmKoala.Lib

structure Chunk where
  size : Nat
  free : Bool
deriving DecidableEq

variable {hdr spare n p a : Nat} {b c : Chunk} {bs bs' : List Chunk}

/-- The bytes a list of blocks covers. -/
def extent (hdr : Nat) : List Chunk → Nat
  | [] => 0
  | b :: bs => hdr + b.size + extent hdr bs

/-- The blocks from address `p` on, each with its address. -/
def places (hdr : Nat) : Nat → List Chunk → List (Nat × Chunk)
  | _, [] => []
  | p, b :: bs => (p, b) :: places hdr (p + hdr + b.size) bs

/-- The blocks that are taken. -/
def used (hdr p : Nat) (bs : List Chunk) : List (Nat × Chunk) :=
  (places hdr p bs).filter fun x => !x.2.free

theorem mem_used {x : Nat × Chunk} :
    x ∈ used hdr p bs ↔ x ∈ places hdr p bs ∧ x.2.free = false := by
  simp [used]

theorem used_cons (hdr p : Nat) (b : Chunk) (bs : List Chunk) :
    used hdr p (b :: bs) =
      if b.free then used hdr (p + hdr + b.size) bs
      else (p, b) :: used hdr (p + hdr + b.size) bs := by
  cases free : b.free with
  | true => simp [used, places, free]
  | false => simp [used, places, free]

/-- Every block lies inside. -/
theorem bounds_of_mem (mem : (a, b) ∈ places hdr p bs) :
    p ≤ a ∧ a + hdr + b.size ≤ p + extent hdr bs := by
  induction bs generalizing p with
  | nil => cases mem
  | cons c bs ih =>
    unfold extent
    rcases List.mem_cons.mp mem with same | later
    · obtain ⟨rfl, rfl⟩ := Prod.mk.inj same
      omega
    · obtain ⟨low, high⟩ := ih later
      omega

/-- Two blocks are the same or do not overlap. -/
theorem places_apart (mem : (a, b) ∈ places hdr p bs) {d : Nat} (mem' : (d, c) ∈ places hdr p bs) :
    (a, b) = (d, c) ∨ a + hdr + b.size ≤ d ∨ d + hdr + c.size ≤ a := by
  induction bs generalizing p with
  | nil => cases mem
  | cons e bs ih =>
    rcases List.mem_cons.mp mem with same | later <;> rcases List.mem_cons.mp mem' with same' | later'
    · exact .inl (same.trans same'.symm)
    · obtain ⟨rfl, rfl⟩ := Prod.mk.inj same
      exact .inr (.inl (bounds_of_mem later').1)
    · obtain ⟨rfl, rfl⟩ := Prod.mk.inj same'
      exact .inr (.inr (bounds_of_mem later).1)
    · exact ih later later'

/-- The blocks lie one behind the other. -/
theorem places_pairwise (hdr p : Nat) (bs : List Chunk) :
    (places hdr p bs).Pairwise fun x y => x.1 + hdr + x.2.size ≤ y.1 := by
  induction bs generalizing p with
  | nil => exact .nil
  | cons b bs ih =>
    refine List.pairwise_cons.mpr ⟨fun y mem => ?_, ih _⟩
    exact (bounds_of_mem (b := y.2) mem).1

/-- No two blocks have the same address. -/
theorem used_nodup (pos : 0 < hdr) (p : Nat) (bs : List Chunk) : ((used hdr p bs).map Prod.fst).Nodup := by
  refine List.pairwise_map.mpr (((places_pairwise hdr p bs).filter _).imp fun {x y} behind => ?_)
  omega

/-- No two neighbours are free. -/
def Apart (bs : List Chunk) : Prop := bs.IsChain fun b c => b.free = false ∨ c.free = false

/-! ### First fit -/

/-- The address of the block that is taken, and the blocks after that. -/
def allocate (hdr spare n : Nat) : Nat → List Chunk → Option (Nat × List Chunk)
  | _, [] => none
  | p, b :: bs =>
    if b.free = true ∧ n ≤ b.size then
      some (p, if n + hdr + spare ≤ b.size then ⟨n, false⟩ :: ⟨b.size - n - hdr, true⟩ :: bs
        else ⟨b.size, false⟩ :: bs)
    else (allocate hdr spare n (p + hdr + b.size) bs).map fun r => (r.1, b :: r.2)

/-- Where an allocation takes its block. -/
inductive Allocated (hdr n : Nat) : Nat → List Chunk → Nat → List Chunk → Prop where
  | whole {p : Nat} {size : Nat} {bs : List Chunk} (fits : n ≤ size) :
      Allocated hdr n p (⟨size, true⟩ :: bs) p (⟨size, false⟩ :: bs)
  | split {p size : Nat} {bs : List Chunk} (fits : n + hdr ≤ size) :
      Allocated hdr n p (⟨size, true⟩ :: bs) p (⟨n, false⟩ :: ⟨size - n - hdr, true⟩ :: bs)
  | later {p a : Nat} {b : Chunk} {bs bs' : List Chunk}
      (rest : Allocated hdr n (p + hdr + b.size) bs a bs') : Allocated hdr n p (b :: bs) a (b :: bs')

theorem allocated_of_eq (done : allocate hdr spare n p bs = some (a, bs')) :
    Allocated hdr n p bs a bs' := by
  induction bs generalizing p bs' with
  | nil => cases done
  | cons b bs ih =>
    unfold allocate at done
    split at done
    · rename_i fits
      obtain ⟨size, free⟩ := b
      obtain rfl : free = true := fits.1
      obtain ⟨rfl, rfl⟩ := Prod.mk.inj (Option.some.inj done)
      split
      · exact .split (by dsimp only at *; omega)
      · exact .whole fits.2
    · obtain ⟨⟨a', rest⟩, found, same⟩ := Option.map_eq_some_iff.mp done
      obtain ⟨rfl, rfl⟩ := Prod.mk.inj same
      exact .later (ih found)

theorem Allocated.extent (done : Allocated hdr n p bs a bs') : extent hdr bs' = extent hdr bs := by
  induction done with
  | whole fits => rfl
  | split fits =>
    simp only [Lib.extent]
    omega
  | later rest ih => simp only [Lib.extent, ih]

/-- The block that is taken is large enough, and the others are as before. -/
theorem Allocated.used (done : Allocated hdr n p bs a bs') :
    ∃ c, n ≤ c.size ∧ (used hdr p bs').Perm ((a, c) :: used hdr p bs) := by
  induction done with
  | @whole p size bs fits => exact ⟨⟨size, false⟩, fits, by simp [used_cons]⟩
  | @split p size bs fits =>
    refine ⟨⟨n, false⟩, le_refl n, ?_⟩
    have at_ : p + hdr + n + hdr + (size - n - hdr) = p + hdr + size := by omega
    simp [used_cons, at_]
  | @later p a b bs bs' rest ih =>
    obtain ⟨c, fits, perm⟩ := ih
    refine ⟨c, fits, ?_⟩
    rw [used_cons, used_cons]
    split
    · exact perm
    · exact (perm.cons _).trans (.swap ..)

/-- The first block is taken, or its being free has not changed. -/
theorem Allocated.head (done : Allocated hdr n p bs a bs') :
    ∃ b c rest rest', bs = b :: rest ∧ bs' = c :: rest' ∧ (c.free = false ∨ c.free = b.free) := by
  cases done with
  | whole fits => exact ⟨_, _, _, _, rfl, rfl, .inl rfl⟩
  | split fits => exact ⟨_, _, _, _, rfl, rfl, .inl rfl⟩
  | later rest => exact ⟨_, _, _, _, rfl, rfl, .inr rfl⟩

theorem Allocated.ne_nil (done : Allocated hdr n p bs a bs') : bs ≠ [] ∧ bs' ≠ [] := by
  obtain ⟨b, c, rest, rest', rfl, rfl, -⟩ := done.head
  exact ⟨List.cons_ne_nil _ _, List.cons_ne_nil _ _⟩

theorem Allocated.apart (done : Allocated hdr n p bs a bs') (apart : Apart bs) : Apart bs' := by
  unfold Apart at apart ⊢
  induction done with
  | @whole p size bs fits =>
    cases bs with
    | nil => exact List.isChain_singleton _
    | cons c bs =>
      rw [List.isChain_cons_cons] at apart ⊢
      exact ⟨.inl rfl, apart.2⟩
  | @split p size bs fits =>
    refine List.isChain_cons_cons.mpr ⟨.inl rfl, ?_⟩
    cases bs with
    | nil => exact List.isChain_singleton _
    | cons c bs =>
      rw [List.isChain_cons_cons] at apart ⊢
      exact ⟨.inr (apart.1.resolve_left (Bool.noConfusion)), apart.2⟩
  | later rest ih =>
    obtain ⟨b, c, rest₁, rest', rfl, rfl, same⟩ := rest.head
    rw [List.isChain_cons_cons] at apart ⊢
    refine ⟨?_, ih apart.2⟩
    rcases apart.1 with left | right
    · exact .inl left
    · rcases same with taken | same
      · exact .inr taken
      · exact .inr (same.trans right)

/-! ### Freeing -/

/-- The block at address `a` is freed. -/
def release (hdr a : Nat) : Nat → List Chunk → List Chunk
  | _, [] => []
  | p, b :: bs =>
    if p = a then ⟨b.size, true⟩ :: bs else b :: release hdr a (p + hdr + b.size) bs

theorem extent_release (hdr a p : Nat) (bs : List Chunk) :
    extent hdr (release hdr a p bs) = extent hdr bs := by
  induction bs generalizing p with
  | nil => rfl
  | cons b bs ih =>
    unfold release
    split
    · rfl
    · simp only [extent, ih]

theorem length_release (hdr a p : Nat) (bs : List Chunk) :
    (release hdr a p bs).length = bs.length := by
  induction bs generalizing p with
  | nil => rfl
  | cons b bs ih =>
    unfold release
    split
    · rfl
    · simp only [List.length_cons, ih]

theorem used_release (pos : 0 < hdr) (mem : (a, b) ∈ used hdr p bs) :
    (used hdr p bs).Perm ((a, b) :: used hdr p (release hdr a p bs)) := by
  induction bs generalizing p with
  | nil => cases mem
  | cons c bs ih =>
    unfold release
    rw [used_cons] at mem ⊢
    by_cases here : p = a
    · subst here
      rw [if_pos rfl, used_cons, if_pos rfl]
      have notLater : (p, b) ∉ used hdr (p + hdr + c.size) bs := by
        intro later
        have := (bounds_of_mem (mem_used.mp later).1).1
        omega
      split at mem
      · exact absurd mem notLater
      · rename_i taken
        rcases List.mem_cons.mp mem with same | later
        · obtain ⟨-, rfl⟩ := Prod.mk.inj same
          rw [if_neg taken]
        · exact absurd later notLater
    · rw [if_neg here, used_cons]
      split at mem
      · rename_i free
        rw [if_pos free, if_pos free]
        exact ih mem
      · rename_i taken
        rw [if_neg taken, if_neg taken]
        rcases List.mem_cons.mp mem with same | later
        · exact absurd (Prod.mk.inj same).1.symm here
        · exact ((ih later).cons _).trans (.swap ..)

/-! ### Joining neighbours -/

/-- Put a block in front, joined with a free neighbour if it is free. -/
def join (hdr : Nat) (b : Chunk) : List Chunk → List Chunk
  | [] => [b]
  | c :: bs => if b.free && c.free then ⟨b.size + hdr + c.size, true⟩ :: bs else b :: c :: bs

theorem join_cons (hdr : Nat) (b c : Chunk) (bs : List Chunk) :
    join hdr b (c :: bs) =
      if b.free && c.free then ⟨b.size + hdr + c.size, true⟩ :: bs else b :: c :: bs := rfl

def coalesced (hdr : Nat) (bs : List Chunk) : List Chunk := bs.foldr (join hdr) []

theorem coalesced_cons (hdr : Nat) (b : Chunk) (bs : List Chunk) :
    coalesced hdr (b :: bs) = join hdr b (coalesced hdr bs) := rfl

/-- The first block of the result is free if the first block was. -/
theorem coalesced_head (hdr : Nat) (b : Chunk) (bs : List Chunk) :
    ∃ c rest, coalesced hdr (b :: bs) = c :: rest ∧ c.free = b.free := by
  rw [coalesced_cons]
  cases coalesced hdr bs with
  | nil => exact ⟨b, [], rfl, rfl⟩
  | cons c rest =>
    rw [join_cons]
    split
    · rename_i both
      rw [Bool.and_eq_true] at both
      exact ⟨_, _, rfl, both.1.symm⟩
    · exact ⟨_, _, rfl, rfl⟩

/-- Joining two free neighbours first makes no difference. -/
theorem coalesced_joined (bFree : b.free = true) (cFree : c.free = true) :
    coalesced hdr (b :: c :: bs) = coalesced hdr (⟨b.size + hdr + c.size, true⟩ :: bs) := by
  rw [coalesced_cons, coalesced_cons, coalesced_cons]
  cases coalesced hdr bs with
  | nil => simp [join, bFree, cFree]
  | cons d rest =>
    cases h : d.free with
    | true => simp [join, bFree, cFree, h, Nat.add_assoc]
    | false => simp [join, bFree, cFree, h]

theorem coalesced_apart (hdr : Nat) (b c : Chunk) (bs : List Chunk)
    (apart : ¬(b.free = true ∧ c.free = true)) :
    coalesced hdr (b :: c :: bs) = b :: coalesced hdr (c :: bs) := by
  rw [coalesced_cons]
  obtain ⟨d, rest, eq, same⟩ := coalesced_head hdr c bs
  rw [eq]
  rw [join_cons, same, if_neg (by simpa using apart)]

theorem extent_coalesced (hdr : Nat) (bs : List Chunk) :
    extent hdr (coalesced hdr bs) = extent hdr bs := by
  induction bs with
  | nil => rfl
  | cons b bs ih =>
    rw [coalesced_cons]
    simp only [extent]
    rw [← ih]
    cases coalesced hdr bs with
    | nil => rfl
    | cons c rest =>
      rw [join_cons]
      split
      · simp only [extent]
        omega
      · rfl

theorem length_coalesced_le (hdr : Nat) (bs : List Chunk) :
    (coalesced hdr bs).length ≤ bs.length := by
  induction bs with
  | nil => exact le_refl 0
  | cons b bs ih =>
    rw [coalesced_cons, List.length_cons]
    cases h : coalesced hdr bs with
    | nil => simp [join]
    | cons c rest =>
      rw [h, List.length_cons] at ih
      rw [join_cons]
      split
      · simp only [List.length_cons]
        omega
      · simp only [List.length_cons]
        omega

theorem used_coalesced (hdr p : Nat) (bs : List Chunk) :
    used hdr p (coalesced hdr bs) = used hdr p bs := by
  induction bs generalizing p with
  | nil => rfl
  | cons b bs ih =>
    rw [coalesced_cons, used_cons, ← ih]
    cases coalesced hdr bs with
    | nil => rw [join, used_cons]
    | cons c rest =>
      rw [join_cons]
      split
      · rename_i both
        rw [Bool.and_eq_true] at both
        rw [used_cons, if_pos rfl, if_pos both.1, used_cons, if_pos both.2]
        congr 1
        dsimp only
        omega
      · rw [used_cons]

theorem apart_coalesced (hdr : Nat) (bs : List Chunk) : Apart (coalesced hdr bs) := by
  induction bs with
  | nil => exact .nil
  | cons b bs ih =>
    rw [coalesced_cons]
    unfold Apart at ih ⊢
    cases h : coalesced hdr bs with
    | nil => exact List.isChain_singleton _
    | cons c rest =>
      rw [h] at ih
      rw [join_cons]
      split
      · rename_i both
        rw [Bool.and_eq_true] at both
        cases rest with
        | nil => exact List.isChain_singleton _
        | cons d rest =>
          rw [List.isChain_cons_cons] at ih ⊢
          refine ⟨.inr (ih.1.resolve_left ?_), ih.2⟩
          rw [both.2]
          exact Bool.noConfusion
      · rename_i notBoth
        refine List.isChain_cons_cons.mpr ⟨?_, ih⟩
        cases hb : b.free with
        | false => exact .inl rfl
        | true =>
          right
          simpa [hb] using notBoth

/-- **Nothing is taken**: then there is one free block. -/
theorem Apart.eq_single (apart : Apart bs) (none_ : used hdr p bs = []) (some_ : bs ≠ []) :
    ∃ n, bs = [⟨n, true⟩] := by
  have free : ∀ {q : Nat} {c : Chunk} {cs : List Chunk}, used hdr q (c :: cs) = [] →
      c.free = true ∧ used hdr (q + hdr + c.size) cs = [] := by
    intro q c cs h
    rw [used_cons] at h
    split at h
    · rename_i free
      exact ⟨free, h⟩
    · cases h
  cases bs with
  | nil => exact absurd rfl some_
  | cons b bs =>
    obtain ⟨size, flag⟩ := b
    obtain ⟨first, rest⟩ := free none_
    obtain rfl : flag = true := first
    cases bs with
    | nil => exact ⟨size, rfl⟩
    | cons c bs =>
      have second := (free rest).1
      unfold Apart at apart
      rw [List.isChain_cons_cons] at apart
      rcases apart.1 with h | h
      · cases h
      · rw [second] at h
        cases h

end AtmKoala.Lib
