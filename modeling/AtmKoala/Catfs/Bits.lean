import AtmKoala.Catfs.Model
import Mathlib.Data.Nat.Bitwise

/-!
The block bitmap and its allocator.

* `bmTest_bmSet`, `bmTest_bmClr`: setting and clearing a bit change that bit.
* `clearBits`: the number of clear bits, and how one bit changes it.
* `Counted`: `sb.free_blocks` is the number of clear bits. `bm_alloc` and
  `bm_free` keep it whatever the bitmap looks like.
* `bmAlloc_none`, `bmAlloc_some`: what the allocator hands out.
* `freeList`: `bm_free` over a list of block numbers with the zeros skipped,
  the shape of every freeing loop of `catfs.c`.
-/

namespace AtmKoala.Catfs

/-! ### Single bits -/

theorem bmTest_lt {bm : Bitmap} {b : Nat} (set : bmTest bm b = true) : b < 16384 := by
  unfold bmTest at set
  split at set
  · omega
  · cases set

theorem bmTest_of_lt (bm : Bitmap) {b : Nat} (h : b / 8 < 2048) :
    bmTest bm b = (bm ⟨b / 8, h⟩).toNat.testBit (b % 8) := by
  simp [bmTest, h]

theorem bmTest_of_ge (bm : Bitmap) {b : Nat} (h : 16384 ≤ b) : bmTest bm b = false := by
  have : ¬b / 8 < 2048 := by omega
  simp [bmTest, this]

private theorem toNat_bit (k : Nat) (h : k < 8) : (UInt8.ofNat (2 ^ k)).toNat = 2 ^ k := by
  have : 2 ^ k < 2 ^ 8 := Nat.pow_lt_pow_right (by decide) h
  simpa using Nat.mod_eq_of_lt this

private theorem testBit_or_bit (v : UInt8) {k j : Nat} (hk : k < 8) :
    (v ||| UInt8.ofNat (2 ^ k)).toNat.testBit j = (v.toNat.testBit j || decide (k = j)) := by
  rw [UInt8.toNat_or, toNat_bit k hk, Nat.testBit_or, Nat.testBit_two_pow]

private theorem testBit_and_not_bit (v : UInt8) {k j : Nat} (hk : k < 8) (hj : j < 8) :
    (v &&& ~~~UInt8.ofNat (2 ^ k)).toNat.testBit j = (v.toNat.testBit j && !decide (k = j)) := by
  have small : 2 ^ k < 2 ^ 8 := Nat.pow_lt_pow_right (by decide) hk
  have flip : (~~~UInt8.ofNat (2 ^ k)).toNat = 2 ^ 8 - (2 ^ k + 1) := by
    rw [UInt8.toNat_not, toNat_bit k hk]
    simp only [UInt8.size]
    omega
  rw [UInt8.toNat_and, flip, Nat.testBit_and, Nat.testBit_two_pow_sub_succ small,
    Nat.testBit_two_pow]
  simp [hj]

theorem bmTest_bmSet (bm : Bitmap) {b : Nat} (hb : b < 16384) (c : Nat) :
    bmTest (bmSet bm b) c = (bmTest bm c || decide (c = b)) := by
  by_cases hc : c < 16384
  · have hc8 : c / 8 < 2048 := by omega
    rw [bmTest_of_lt _ hc8, bmTest_of_lt _ hc8]
    by_cases hbyte : c / 8 = b / 8
    · have same : (b % 8 = c % 8) ↔ c = b := by omega
      simp only [bmSet, hbyte, if_true, testBit_or_bit _ (Nat.mod_lt b (by decide : 0 < 8)), same]
    · have hne : c ≠ b := fun h => hbyte (by rw [h])
      simp [bmSet, hbyte, hne]
  · have hne : c ≠ b := by omega
    simp [bmTest_of_ge _ (Nat.le_of_not_lt hc), hne]

theorem bmTest_bmClr (bm : Bitmap) (b c : Nat) :
    bmTest (bmClr bm b) c = (bmTest bm c && !decide (c = b)) := by
  by_cases hc : c < 16384
  · have hc8 : c / 8 < 2048 := by omega
    rw [bmTest_of_lt _ hc8, bmTest_of_lt _ hc8]
    by_cases hbyte : c / 8 = b / 8
    · have same : (b % 8 = c % 8) ↔ c = b := by omega
      simp only [bmClr, hbyte, if_true, testBit_and_not_bit _ (Nat.mod_lt b (by decide : 0 < 8))
        (Nat.mod_lt c (by decide : 0 < 8)), same]
    · have hne : c ≠ b := fun h => hbyte (by rw [h])
      simp [bmClr, hbyte, hne]
  · simp [bmTest_of_ge _ (Nat.le_of_not_lt hc)]

@[simp] theorem bmTest_zero (b : Nat) : bmTest (fun _ => 0) b = false := by
  unfold bmTest
  split <;> simp

/-! ### Counting clear bits -/

/-- Number of clear bits. -/
def clearBits (bm : Bitmap) : Nat := (List.range blocksMax).countP fun b => !bmTest bm b

private theorem countP_range_flip (n : Nat) {p q : Nat → Bool} {b : Nat} (hb : b < n)
    (on : p b = true) (off : q b = false) (same : ∀ c, c ≠ b → q c = p c) :
    (List.range n).countP q + 1 = (List.range n).countP p := by
  induction n with
  | zero => omega
  | succ n ih =>
    rw [List.range_succ, List.countP_append, List.countP_append, List.countP_singleton,
      List.countP_singleton]
    by_cases hlast : b = n
    · have prefixSame : (List.range n).countP q = (List.range n).countP p := by
        refine List.countP_congr fun c hc => ?_
        rw [same c (by have := List.mem_range.mp hc; omega)]
      subst hlast
      simp [on, off, prefixSame]
    · have := ih (by omega)
      rw [same n (fun h => hlast h.symm)]
      omega

theorem clearBits_bmSet {bm : Bitmap} {b : Nat} (hb : b < 16384) (clear : bmTest bm b = false) :
    clearBits (bmSet bm b) + 1 = clearBits bm := by
  refine countP_range_flip blocksMax hb (by simp [clear]) ?_ fun c hc => ?_
  · simp [bmTest_bmSet bm hb]
  · simp [bmTest_bmSet bm hb, hc]

theorem clearBits_bmClr {bm : Bitmap} {b : Nat} (set : bmTest bm b = true) :
    clearBits (bmClr bm b) = clearBits bm + 1 := by
  refine (countP_range_flip blocksMax (bmTest_lt set) ?_ (by simp [set]) fun c hc => ?_).symm
  · simp [bmTest_bmClr]
  · simp [bmTest_bmClr, hc]

theorem clearBits_le (bm : Bitmap) : clearBits bm ≤ 16384 := by
  have := List.countP_le_length (p := fun b => !bmTest bm b) (l := List.range blocksMax)
  simpa [clearBits] using this

theorem clearBits_eq_zero {bm : Bitmap} :
    clearBits bm = 0 ↔ ∀ b, b < 16384 → bmTest bm b = true := by
  simp [clearBits, List.countP_eq_zero]

theorem clearBits_zero : clearBits (fun _ => 0) = 16384 := by
  have all : (List.range blocksMax).countP (fun b => !bmTest (fun _ => 0) b) =
      (List.range blocksMax).length := by
    rw [List.countP_eq_length]
    simp
  rw [clearBits, all, List.length_range]
  rfl

attribute [irreducible] clearBits

/-- The superblock counts the clear bits. -/
def Counted (c : State) : Prop := c.sb.freeBlocks.toNat = clearBits c.bitmap

/-! ### Allocation -/

theorem bmAlloc_none {c c' : State} (h : bmAlloc c = (c', none)) :
    c' = c ∧ clearBits c.bitmap = 0 := by
  unfold bmAlloc at h
  split at h
  · cases h
  · rename_i full
    cases h
    refine ⟨rfl, clearBits_eq_zero.mpr fun b hb => ?_⟩
    have := List.find?_eq_none.mp full b (List.mem_range.mpr hb)
    simpa using this

/-- **Allocator.** A successful `bm_alloc` sets one clear bit, the lowest one,
and takes one from the count if the count was right. -/
theorem bmAlloc_some {c c' : State} {nb : UInt32} (h : bmAlloc c = (c', some nb)) :
    nb.toNat < 16384 ∧ bmTest c.bitmap nb.toNat = false ∧
      (∀ b, b < nb.toNat → bmTest c.bitmap b = true) ∧
      c' = { c with
        bitmap := bmSet c.bitmap nb.toNat
        sb := { c.sb with freeBlocks := c'.sb.freeBlocks } } ∧
      (Counted c → Counted c') := by
  unfold bmAlloc at h
  split at h
  · rename_i i found
    cases h
    obtain ⟨clear, i', hi', hget, before⟩ := List.find?_eq_some_iff_getElem.mp found
    simp only [blocksMax, List.length_range, List.getElem_range] at hi' hget before
    subst hget
    have hnat : (UInt32.ofNat i').toNat = i' := by
      simp
      omega
    simp only [Bool.not_eq_eq_eq_not, Bool.not_true] at clear
    refine ⟨by omega, by rw [hnat]; exact clear, ?_, by rw [hnat], ?_⟩
    · intro b hb
      have := before b (by omega)
      simpa using this
    · intro counted
      have one := clearBits_bmSet hi' clear
      have positive : 0 < c.sb.freeBlocks.toNat := by
        rw [counted]
        omega
      have hpos : c.sb.freeBlocks > 0 := by
        rw [gt_iff_lt, UInt32.lt_iff_toNat_lt]
        exact positive
      unfold Counted at counted ⊢
      simp only [hpos, if_true]
      rw [UInt32.toNat_sub_of_le _ _ (by rw [UInt32.le_iff_toNat_le]; exact positive), counted]
      simp only [UInt32.toNat_one]
      omega
  · cases h

/-! ### Freeing -/

theorem bmFree_eq (c : State) (b : UInt32) :
    bmFree c b = { c with
      bitmap := bmClr c.bitmap b.toNat
      sb := { c.sb with freeBlocks := (bmFree c b).sb.freeBlocks } } := by
  unfold bmFree
  split
  · rfl
  · rename_i clear
    have same : bmClr c.bitmap b.toNat = c.bitmap := by
      funext i
      simp only [bmClr]
      split
      · rename_i hi
        have hlt : b.toNat / 8 < 2048 := hi ▸ i.isLt
        have hfin : i = ⟨b.toNat / 8, hlt⟩ := Fin.ext hi
        apply UInt8.toNat_inj.mp
        refine Nat.eq_of_testBit_eq fun j => ?_
        by_cases hj : j < 8
        · rw [testBit_and_not_bit _ (Nat.mod_lt _ (by decide)) hj]
          by_cases hbit : b.toNat % 8 = j
          · rw [bmTest_of_lt _ hlt, hbit, ← hfin] at clear
            simp [hbit, Bool.eq_false_iff.mpr clear]
          · simp [hbit]
        · have big : ∀ v : UInt8, v.toNat.testBit j = false := fun v =>
            Nat.testBit_lt_two_pow (lt_of_lt_of_le v.toNat_lt
              (Nat.pow_le_pow_right (by decide) (Nat.le_of_not_lt hj)))
          rw [big, big]
      · rfl
    rw [same]

@[simp] theorem bmFree_bitmap (c : State) (b : UInt32) :
    (bmFree c b).bitmap = bmClr c.bitmap b.toNat := by
  rw [bmFree_eq]

theorem Counted.bmFree {c : State} (h : Counted c) (b : UInt32) : Counted (bmFree c b) := by
  unfold Catfs.bmFree
  split
  · rename_i set
    unfold Counted at h ⊢
    rw [UInt32.toNat_add, h, clearBits_bmClr set]
    have hle := clearBits_le (bmClr c.bitmap b.toNat)
    rw [clearBits_bmClr set] at hle
    simp only [UInt32.toNat_one]
    omega
  · exact h

/-- `bm_free` over a list of block numbers, zeros skipped. -/
def freeList (c : State) (bs : List UInt32) : State :=
  bs.foldl (fun c b => if b ≠ 0 then bmFree c b else c) c

@[simp] theorem freeList_nil (c : State) : freeList c [] = c := rfl

@[simp] theorem freeList_cons (c : State) (b : UInt32) (bs : List UInt32) :
    freeList c (b :: bs) = freeList (if b ≠ 0 then bmFree c b else c) bs := rfl

theorem freeList_append (c : State) (bs cs : List UInt32) :
    freeList c (bs ++ cs) = freeList (freeList c bs) cs := by
  simp [freeList, List.foldl_append]

/-- Freeing touches the bitmap and the count, nothing else. -/
theorem freeList_eq (c : State) (bs : List UInt32) :
    freeList c bs = { c with
      bitmap := (freeList c bs).bitmap
      sb := { c.sb with freeBlocks := (freeList c bs).sb.freeBlocks } } := by
  induction bs generalizing c with
  | nil => rfl
  | cons b bs ih =>
    rw [freeList_cons]
    by_cases hb : b = 0
    · simp only [hb, ne_eq, not_true_eq_false, if_false]
      exact ih c
    · simp only [hb, ne_eq, not_false_eq_true, if_true]
      rw [ih (bmFree c b), bmFree_eq]

theorem bmTest_freeList (c : State) (bs : List UInt32) (b : UInt32) :
    bmTest (freeList c bs).bitmap b.toNat =
      (bmTest c.bitmap b.toNat && !decide (b ≠ 0 ∧ b ∈ bs)) := by
  induction bs generalizing c with
  | nil => simp
  | cons a bs ih =>
    rw [freeList_cons, ih]
    by_cases ha : a = 0
    · have : (b ≠ 0 ∧ b ∈ a :: bs) ↔ (b ≠ 0 ∧ b ∈ bs) := by
        simp only [List.mem_cons, ha]
        tauto
      rw [decide_eq_decide.mpr this, if_neg (not_not.mpr ha)]
    · by_cases hba : b = a
      · subst hba
        simp [ha, bmTest_bmClr]
      · have hnat : b.toNat ≠ a.toNat := fun h => hba (UInt32.toNat_inj.mp h)
        simp [ha, hba, bmTest_bmClr, hnat]

theorem Counted.freeList {c : State} (h : Counted c) (bs : List UInt32) :
    Counted (freeList c bs) := by
  induction bs generalizing c with
  | nil => exact h
  | cons b bs ih =>
    rw [freeList_cons]
    split
    · exact ih (h.bmFree b)
    · exact ih h

end AtmKoala.Catfs
