import Mathlib.Tactic.Cases
import AtmKoala.Paging.Map

/-!
Copies between a user space and the kernel.

* `Covered pages toUser uaddr len`: the range is in the window, mapped, and writable if
  the copy goes there. `pagingUserRange_eq`: the walk over its pages finds out just this.
* `userCopyLoop_copied`: the pieces of the copy are one copy, between the buffer and the
  frames of the range.
* `user_copies`: what `copy_to_user` and `copy_from_user` do.
-/

namespace AtmKoala.Paging

open Lib
open Function (update_of_ne update_self)

def Covered (pages : PageMap) (toUser : Bool) (uaddr len : Nat) : Prop :=
  ∀ a, uaddr ≤ a → a < uaddr + len → userWindow a = true ∧
    ∃ x, pages (pageBase a) = some x ∧ (toUser = true → x.writable = true)

/-- The address behind a mapped user address. -/
def physical (pages : PageMap) (va : Nat) : Nat :=
  ((pages (pageBase va)).map fun x => x.frame + va % atmPageSize).getD 0

/-- The byte a program finds at a user address. -/
def userByte (pages : PageMap) (m : Memory) (va : Nat) : Option UInt8 :=
  (pages (pageBase va)).map fun x => m (x.frame + va % atmPageSize)

/-- A buffer of the kernel, which lies in no frame of the space. -/
structure KernelBuffer (pages : PageMap) (kaddr len : Nat) : Prop where
  notNull : kaddr ≠ 0
  apart : ∀ i x, pages i = some x → x.frame + atmPageSize ≤ kaddr ∨ kaddr + len ≤ x.frame

variable {s : UserSpace} {pages : PageMap} {toUser : Bool} {uaddr kaddr len : Nat} {m : Memory}

/-! ### The check -/

theorem pagingUserRangeLoop_eq (toUser : Bool) (shows_ : Shows s pages) {last page : Nat} (n : Nat)
    (aligned : page % atmPageSize = 0) (lastPage : last = page + atmPageSize * n) :
    pagingUserRangeLoop s toUser last (n + 1) page = 0 ∧
        (∀ j ≤ n, ∃ x, pages (page + atmPageSize * j) = some x ∧
          (toUser = true → x.writable = true)) ∨
      pagingUserRangeLoop s toUser last (n + 1) page = -1 ∧
        ∃ j ≤ n, ∀ x, pages (page + atmPageSize * j) = some x →
          toUser = true ∧ x.writable = false := by
  have base : pageBase page = page := by
    have split := pageBase_add page
    omega
  induction n generalizing page with
  | zero =>
    unfold pagingUserRangeLoop
    cases there : pages page with
    | none =>
      rw [shows_.translate_none (base.symm ▸ there)]
      refine .inr ⟨rfl, 0, Nat.le_refl 0, fun x at_ => ?_⟩
      rw [Nat.mul_zero, Nat.add_zero, there] at at_
      cases at_
    | some x =>
      obtain ⟨e, translated, writable⟩ := shows_.translate (base.symm ▸ there : pages (pageBase page) = some x)
      rw [translated]
      dsimp only
      rw [writable, if_pos (show page = last by omega)]
      by_cases denied : (toUser && !x.writable) = true
      · rw [if_pos denied]
        refine .inr ⟨rfl, 0, Nat.le_refl 0, fun y at_ => ?_⟩
        rw [Nat.mul_zero, Nat.add_zero, there] at at_
        obtain rfl := Option.some.inj at_
        simpa using denied
      · rw [if_neg denied]
        refine .inl ⟨rfl, fun j zero => ⟨x, ?_, fun write => by simpa [write] using denied⟩⟩
        rw [Nat.le_zero.mp zero]
        exact there
  | succ n ih =>
    unfold pagingUserRangeLoop
    cases there : pages page with
    | none =>
      rw [shows_.translate_none (base.symm ▸ there)]
      refine .inr ⟨rfl, 0, Nat.zero_le _, fun x at_ => ?_⟩
      rw [Nat.mul_zero, Nat.add_zero, there] at at_
      cases at_
    | some x =>
      obtain ⟨e, translated, writable⟩ := shows_.translate (base.symm ▸ there : pages (pageBase page) = some x)
      have further : page ≠ last := by
        unfold atmPageSize at lastPage
        omega
      rw [translated]
      dsimp only
      rw [writable, if_neg further]
      by_cases denied : (toUser && !x.writable) = true
      · rw [if_pos denied]
        refine .inr ⟨rfl, 0, Nat.zero_le _, fun y at_ => ?_⟩
        rw [Nat.mul_zero, Nat.add_zero, there] at at_
        obtain rfl := Option.some.inj at_
        simpa using denied
      · rw [if_neg denied]
        have next : (page + atmPageSize) % atmPageSize = 0 := by rw [Nat.add_mod_right, aligned]
        have place : ∀ j, page + atmPageSize + atmPageSize * j = page + atmPageSize * (j + 1) :=
          fun j => by rw [Nat.mul_succ]; omega
        have rest := ih next (by rw [lastPage, place]) (by
          have split := pageBase_add (page + atmPageSize)
          omega)
        simp only [place] at rest
        rcases rest with ⟨found, all⟩ | ⟨failed, j, less, refused⟩
        · refine .inl ⟨found, fun j less => ?_⟩
          cases j with
          | zero => exact ⟨x, there, fun write => by simpa [write] using denied⟩
          | succ j => exact all j (by omega)
        · exact .inr ⟨failed, j + 1, by omega, refused⟩

/-- **The check.** The pages are those of the bytes of the range. -/
theorem pagingUserRange_eq (toUser : Bool) (uaddr : Nat) (shows_ : Shows s pages) (some_ : len ≠ 0) :
    pagingUserRange s uaddr len toUser = 0 ∧ Covered pages toUser uaddr len ∨
      pagingUserRange s uaddr len toUser = -1 ∧ ¬Covered pages toUser uaddr len := by
  by_cases start : userWindow uaddr = true
  case neg =>
    refine .inr ⟨by simp [pagingUserRange, start], fun covered => start ?_⟩
    exact (covered uaddr (Nat.le_refl _) (by omega)).1
  by_cases large : atmUserWindowSize < len
  case pos =>
    refine .inr ⟨by simp [pagingUserRange, large], fun covered => ?_⟩
    have inside := (covered (uaddr + len - 1) (by omega) (by omega)).1
    rw [window_iff] at start inside
    unfold atmUserWindowSize at large
    omega
  have bounds := window_iff.mp start
  have small : len ≤ atmUserWindowSize := Nat.le_of_not_lt large
  unfold atmUserWindowSize at small
  have end_ : (uaddr + len - 1) % 2 ^ 64 = uaddr + len - 1 := Nat.mod_eq_of_lt (by omega)
  rw [pagingUserRange, if_neg (by simp [some_, start, large]), end_]
  dsimp only
  by_cases inside : userWindow (uaddr + len - 1) = true
  case neg =>
    rw [if_pos (by simp [inside])]
    refine .inr ⟨rfl, fun covered => inside ?_⟩
    exact (covered _ (by omega) (by omega)).1
  rw [if_neg (by simpa [inside] using by omega), pageMask_eq start, pageMask_eq inside]
  have low := pageBase_add uaddr
  have high := pageBase_add (uaddr + len - 1)
  have lowMod := pageBase_mod uaddr
  have highMod := pageBase_mod (uaddr + len - 1)
  generalize count : (pageBase (uaddr + len - 1) - pageBase uaddr) / atmPageSize = n
  have lastPage : pageBase (uaddr + len - 1) = pageBase uaddr + atmPageSize * n := by
    unfold atmPageSize at *
    omega
  -- byte `a` lies in page `j` of the walk
  have page : ∀ a, uaddr ≤ a → a < uaddr + len →
      ∃ j ≤ n, pageBase a = pageBase uaddr + atmPageSize * j := by
    intro a above below
    have mid := pageBase_add a
    have midMod := pageBase_mod a
    refine ⟨(pageBase a - pageBase uaddr) / atmPageSize, ?_, ?_⟩
    · unfold atmPageSize at *
      omega
    · unfold atmPageSize at *
      omega
  have byte : ∀ j ≤ n, ∃ a, uaddr ≤ a ∧ a < uaddr + len ∧
      pageBase a = pageBase uaddr + atmPageSize * j := by
    intro j less
    by_cases zero : j = 0
    · exact ⟨uaddr, Nat.le_refl _, by omega, by rw [zero, Nat.mul_zero, Nat.add_zero]⟩
    · refine ⟨pageBase uaddr + atmPageSize * j, ?_, ?_, ?_⟩
      · unfold atmPageSize at *
        omega
      · unfold atmPageSize at *
        omega
      · have mid := pageBase_add (pageBase uaddr + atmPageSize * j)
        rw [Nat.add_mul_mod_self_left, lowMod, Nat.add_zero] at mid
        exact mid
  rcases pagingUserRangeLoop_eq toUser shows_ n lowMod lastPage with
    ⟨found, all⟩ | ⟨failed, j, less, refused⟩
  · refine .inl ⟨found, fun a above below => ?_⟩
    obtain ⟨j, less, same⟩ := page a above below
    obtain ⟨x, there, rights⟩ := all j less
    rw [← same] at there
    exact ⟨shows_.window there, x, there, rights⟩
  · refine .inr ⟨failed, fun covered => ?_⟩
    obtain ⟨a, above, below, same⟩ := byte j less
    obtain ⟨-, x, there, rights⟩ := covered a above below
    obtain ⟨write, readOnly⟩ := refused x (same ▸ there)
    rw [rights write] at readOnly
    cases readOnly

/-! ### The copy -/

/-- Where the bytes on one side of a copy are: in the frames, or in the buffer. -/
def place (pages : PageMap) (user : Bool) (uaddr kaddr i : Nat) : Nat :=
  if user then physical pages (uaddr + i) else kaddr + i

theorem offset_lt (va : Nat) : va % atmPageSize < atmPageSize :=
  Nat.mod_lt _ (by unfold atmPageSize; omega)

theorem physical_of {va : Nat} {x : Page} (there : pages (pageBase va) = some x) :
    physical pages va = x.frame + va % atmPageSize := by
  rw [physical, there]
  rfl

theorem physical_inj (shows_ : Shows s pages) (unrelated : Unrelated pages) {a b : Nat} {x y : Page}
    (there : pages (pageBase a) = some x) (there' : pages (pageBase b) = some y)
    (same : physical pages a = physical pages b) : a = b := by
  rw [physical_of there, physical_of there'] at same
  have aligned := shows_.frames _ _ there
  have aligned' := shows_.frames _ _ there'
  have split := pageBase_add a
  have split' := pageBase_add b
  have frame : x.frame = y.frame := by
    unfold atmPageSize at *
    omega
  have base := unrelated _ _ _ _ there there' frame
  omega

theorem KernelBuffer.notPhysical (buffer : KernelBuffer pages kaddr len) {a : Nat} {x : Page}
    (there : pages (pageBase a) = some x) {i : Nat} (less : i < len) :
    physical pages a ≠ kaddr + i := by
  rw [physical_of there]
  have apart := buffer.apart _ _ there
  have := offset_lt a
  omega

theorem KernelBuffer.part (buffer : KernelBuffer pages kaddr len) {n : Nat} (less : n ≤ len) :
    KernelBuffer pages (kaddr + n) (len - n) := by
  refine ⟨?_, fun i x there => ?_⟩
  · have := buffer.notNull
    omega
  · have := buffer.apart i x there
    omega

/-- Bytes of one page lie behind each other. -/
theorem physical_piece {x : Page} (there : pages (pageBase uaddr) = some x) {i : Nat}
    (less : i < atmPageSize - uaddr % atmPageSize) :
    physical pages (uaddr + i) = x.frame + uaddr % atmPageSize + i := by
  have split := pageBase_add uaddr
  have mod := pageBase_mod uaddr
  have split' := pageBase_add (uaddr + i)
  have mod' := pageBase_mod (uaddr + i)
  have base : pageBase (uaddr + i) = pageBase uaddr := by
    unfold atmPageSize at *
    omega
  have there' : pages (pageBase (uaddr + i)) = some x := by rwa [base]
  rw [physical_of there']
  omega

/-- **The loop.** It gets to the end, and its pieces are one copy. -/
theorem userCopyLoop_copied (toUser : Bool) (m : Memory) (uaddr kaddr len : Nat)
    (shows_ : Shows s pages) (unrelated : Unrelated pages) (fuel : Nat)
    (covered : Covered pages false uaddr len) (buffer : KernelBuffer pages kaddr len)
    (enough : len ≤ fuel) :
    (userCopyLoop s toUser fuel m uaddr kaddr len).2 = 0 ∧
      Copied m (userCopyLoop s toUser fuel m uaddr kaddr len).1 (place pages toUser uaddr kaddr)
        (place pages (!toUser) uaddr kaddr) len := by
  induction fuel generalizing m uaddr kaddr len with
  | zero =>
    obtain rfl := Nat.le_zero.mp enough
    exact ⟨rfl, .nothing⟩
  | succ fuel ih =>
    unfold userCopyLoop
    by_cases done : len = 0
    · rw [if_pos done, done]
      exact ⟨rfl, .nothing⟩
    rw [if_neg done]
    obtain ⟨inside, x, there, -⟩ := covered uaddr (Nat.le_refl _) (by omega)
    obtain ⟨e, translated, -⟩ := shows_.translate there
    rw [translated]
    dsimp only
    have room := offset_lt uaddr
    generalize piece : (if len < atmPageSize - uaddr % atmPageSize then len
      else atmPageSize - uaddr % atmPageSize) = n
    have positive : 0 < n := by
      split at piece <;> omega
    have short : n ≤ len := by
      split at piece <;> omega
    have onPage : n ≤ atmPageSize - uaddr % atmPageSize := by
      split at piece <;> omega
    have mapped : ∀ i < len, ∃ y, pages (pageBase (uaddr + i)) = some y := fun i less => by
      obtain ⟨-, y, at_, -⟩ := covered (uaddr + i) (by omega) (by omega)
      exact ⟨y, at_⟩
    have clear : ∀ i < len, ∀ j < len, physical pages (uaddr + i) ≠ kaddr + j :=
      fun i less j less' => by
        obtain ⟨y, at_⟩ := mapped i less
        exact buffer.notPhysical at_ less'
    have onPage' : ∀ i < n, physical pages (uaddr + i) = x.frame + uaddr % atmPageSize + i :=
      fun i less => physical_piece there (by omega)
    -- the piece on the first page
    have first : Copied m
        (if toUser = true then memcpy m (x.frame + uaddr % atmPageSize) kaddr n
          else memcpy m kaddr (x.frame + uaddr % atmPageSize) n)
        (place pages toUser uaddr kaddr) (place pages (!toUser) uaddr kaddr) n := by
      cases toUser with
      | true =>
        refine (memcpy_copied fun i less j less' => ?_).congr onPage' fun i _ => rfl
        exact onPage' i less ▸ clear i (by omega) j (by omega)
      | false =>
        refine (memcpy_copied fun i less j less' => ?_).congr (fun i _ => rfl) onPage'
        exact (onPage' j less' ▸ clear j (by omega) i (by omega)).symm
    -- the others
    have below : uaddr + n < 2 ^ 64 := by
      obtain ⟨last, -⟩ := covered (uaddr + len - 1) (by omega) (by omega)
      have := window_iff.mp last
      omega
    rw [Nat.mod_eq_of_lt below]
    obtain ⟨ended, rest⟩ := ih (if toUser = true
        then memcpy m (x.frame + uaddr % atmPageSize) kaddr n
        else memcpy m kaddr (x.frame + uaddr % atmPageSize) n) (uaddr + n) (kaddr + n) (len - n)
      (fun a above less => covered a (by omega) (by omega)) (buffer.part short) (by omega)
    refine ⟨ended, ?_⟩
    have whole : n + (len - n) = len := by omega
    have shift : ∀ user, (fun i => place pages user uaddr kaddr (n + i)) =
        place pages user (uaddr + n) (kaddr + n) := fun user => by
      funext i
      simp only [place, Nat.add_assoc]
    have joined := first.append (k := len - n) (by rw [shift, shift]; exact rest)
    rw [whole] at joined
    refine joined ?_ ?_
    · intro i less j less' same
      cases toUser with
      | true =>
        obtain ⟨y, at_⟩ := mapped i less
        obtain ⟨z, at'⟩ := mapped j less'
        have := physical_inj shows_ unrelated at_ at' same
        omega
      | false =>
        have : kaddr + i = kaddr + j := same
        omega
    · intro i less j less'
      cases toUser with
      | true => exact clear i less j less'
      | false => exact (clear j less' i less).symm

/-- **A call.** It copies a range that is covered, and does nothing otherwise. -/
theorem userCopy_eq (toUser : Bool) (m : Memory) (uaddr : Nat) (shows_ : Shows s pages)
    (unrelated : Unrelated pages) (buffer : KernelBuffer pages kaddr len) :
    (userCopy s m uaddr kaddr len toUser).2 = 0 ∧ Covered pages toUser uaddr len ∧
        Copied m (userCopy s m uaddr kaddr len toUser).1 (place pages toUser uaddr kaddr)
          (place pages (!toUser) uaddr kaddr) len ∨
      userCopy s m uaddr kaddr len toUser = (m, -1) ∧ ¬Covered pages toUser uaddr len := by
  unfold userCopy
  rw [if_neg buffer.notNull]
  by_cases nothing : len = 0
  · rw [if_pos nothing, nothing]
    exact .inl ⟨rfl, fun a above below => absurd below (by omega), .nothing⟩
  rw [if_neg nothing]
  rcases pagingUserRange_eq toUser uaddr shows_ nothing with
    ⟨found, covered⟩ | ⟨failed, uncovered⟩
  · rw [found, if_neg (by decide)]
    obtain ⟨ended, copied⟩ := userCopyLoop_copied toUser m uaddr kaddr len shows_ unrelated len
      (fun a above below => by
        obtain ⟨inside, x, there, -⟩ := covered a above below
        exact ⟨inside, x, there, nofun⟩) buffer (Nat.le_refl _)
    exact .inl ⟨ended, covered, copied⟩
  · rw [failed, if_pos (by decide)]
    exact .inr ⟨rfl, uncovered⟩

theorem userByte_eq {va : Nat} {x : Page} (there : pages (pageBase va) = some x) :
    userByte pages m va = some (m (physical pages va)) := by
  rw [userByte, physical_of there, there]
  rfl

/-- What a copy has moved to a range that is covered. -/
theorem userByte_copied {m' : Memory} (shows_ : Shows s pages) (unrelated : Unrelated pages)
    (covered : Covered pages true uaddr len)
    (copied : Copied m m' (place pages true uaddr kaddr) (place pages false uaddr kaddr) len) :
    (∀ i < len, userByte pages m' (uaddr + i) = some (m (kaddr + i))) ∧
      ∀ a, a < uaddr ∨ uaddr + len ≤ a → userByte pages m' a = userByte pages m a := by
  constructor
  · intro i less
    obtain ⟨-, x, there, -⟩ := covered (uaddr + i) (by omega) (by omega)
    rw [userByte_eq there]
    exact congrArg some (copied.moved i less)
  · intro a outside
    cases at_ : pages (pageBase a) with
    | none => rw [userByte, userByte, at_, Option.map_none, Option.map_none]
    | some y =>
      rw [userByte_eq at_, userByte_eq at_]
      refine congrArg some (copied.kept _ fun i less same => ?_)
      obtain ⟨-, x, there, -⟩ := covered (uaddr + i) (by omega) (by omega)
      have := physical_inj shows_ unrelated at_ there same
      omega

/-- A copy to a range that is covered. -/
theorem copyToUser_covered (m : Memory) (shows_ : Shows s pages) (unrelated : Unrelated pages)
    (buffer : KernelBuffer pages kaddr len) (covered : Covered pages true uaddr len) :
    (copyToUser s m uaddr kaddr len).2 = 0 ∧
      (∀ i < len, userByte pages (copyToUser s m uaddr kaddr len).1 (uaddr + i) =
        some (m (kaddr + i))) ∧
      ∀ a, a < uaddr ∨ uaddr + len ≤ a →
        userByte pages (copyToUser s m uaddr kaddr len).1 a = userByte pages m a := by
  rcases userCopy_eq true m uaddr shows_ unrelated buffer with
    ⟨done, -, copied⟩ | ⟨-, uncovered⟩
  · exact ⟨done, userByte_copied shows_ unrelated covered copied⟩
  · exact absurd covered uncovered

variable {kpd : Fin 4 → Nat → Nat} {ops : List Op} {t : UserSpace × PageMap}

/-- **User copies.** In a space whose pages have frames of their own, `copy_to_user` and
`copy_from_user` succeed just on the ranges that are covered. They then move the bytes of the
range and no other, and do nothing when they fail; what was copied to a range is what a copy
from it gets. -/
theorem user_copies (run : Run pageStep Owned (pagingCreateUserSpace kpd, fun _ => none) ops t)
    (m : Memory) (uaddr len : Nat) (buffer : KernelBuffer t.2 kaddr len) :
    let there := copyToUser t.1 m uaddr kaddr len
    let here := copyFromUser t.1 m kaddr uaddr len
    ((there.2 = 0 ↔ Covered t.2 true uaddr len) ∧ (there.2 ≠ 0 → there.1 = m) ∧
      (there.2 = 0 →
        (∀ i < len, userByte t.2 there.1 (uaddr + i) = some (m (kaddr + i))) ∧
        (∀ a, a < uaddr ∨ uaddr + len ≤ a → userByte t.2 there.1 a = userByte t.2 m a) ∧
        ∀ p, (∀ i < len, p ≠ physical t.2 (uaddr + i)) → there.1 p = m p)) ∧
    ((here.2 = 0 ↔ Covered t.2 false uaddr len) ∧ (here.2 ≠ 0 → here.1 = m) ∧
      (here.2 = 0 →
        (∀ i < len, userByte t.2 m (uaddr + i) = some (here.1 (kaddr + i))) ∧
        ∀ p, p < kaddr ∨ kaddr + len ≤ p → here.1 p = m p)) ∧
    (there.2 = 0 → ∀ dst, KernelBuffer t.2 dst len →
      (copyFromUser t.1 there.1 dst uaddr len).2 = 0 ∧
        ∀ i < len, (copyFromUser t.1 there.1 dst uaddr len).1 (dst + i) = m (kaddr + i)) := by
  have shows_ := shows_run run
  have unrelated := unrelated_run run
  dsimp only
  refine ⟨?_, ?_, ?_⟩
  · rcases userCopy_eq true m uaddr shows_ unrelated buffer with
      ⟨done, covered, copied⟩ | ⟨failed, uncovered⟩
    · obtain ⟨moved, frame⟩ := userByte_copied shows_ unrelated covered copied
      exact ⟨iff_of_true done covered, fun failed => absurd done failed,
        fun _ => ⟨moved, frame, copied.kept⟩⟩
    · rw [copyToUser, failed]
      exact ⟨iff_of_false (by simp) uncovered, fun _ => rfl, fun done => absurd done (by simp)⟩
  · rcases userCopy_eq false m uaddr shows_ unrelated buffer with
      ⟨done, covered, copied⟩ | ⟨failed, uncovered⟩
    · refine ⟨iff_of_true done covered, fun failed => absurd done failed, fun _ => ⟨?_, ?_⟩⟩
      · intro i less
        obtain ⟨-, x, there, -⟩ := covered (uaddr + i) (by omega) (by omega)
        rw [userByte_eq there]
        exact congrArg some (copied.moved i less).symm
      · intro p outside
        refine copied.kept p fun i less same => ?_
        have : p = kaddr + i := same
        omega
    · rw [copyFromUser, failed]
      exact ⟨iff_of_false (by simp) uncovered, fun _ => rfl, fun done => absurd done (by simp)⟩
  · intro done dst buffer'
    rcases userCopy_eq true m uaddr shows_ unrelated buffer with
      ⟨-, covered, copied⟩ | ⟨failed, -⟩
    · rcases userCopy_eq false (copyToUser t.1 m uaddr kaddr len).1 uaddr shows_ unrelated
          buffer' with ⟨done', -, copied'⟩ | ⟨-, uncovered⟩
      · exact ⟨done', copied.back copied'⟩
      · refine absurd (fun a above below => ?_) uncovered
        obtain ⟨inside, x, there, -⟩ := covered a above below
        exact ⟨inside, x, there, nofun⟩
    · rw [copyToUser, failed] at done
      cases done

/-- Two pages on both sides of the border of a table, with frames far from each other. -/
def bordering : List Op :=
  [.map 0x401ff000 0x700000 true true true, .map 0x40200000 0x300000 true true true]

/-- The space and the map after `bordering`. -/
def bordered : UserSpace × PageMap :=
  bordering.foldl (fun s op => ((op.perform s.1).1,
    if (op.perform s.1).2 = 0 then op.effect s.2 else s.2))
    (pagingCreateUserSpace fun _ _ => 0, fun _ => none)

theorem bordered_pages {i : Nat} {x : Page} (there : bordered.2 i = some x) :
    i = 0x40200000 ∧ x.frame = 0x300000 ∨ i = 0x401ff000 ∧ x.frame = 0x700000 := by
  have eq : bordered.2 = Function.update (Function.update (fun _ => none) 0x401ff000
      (some ⟨0x700000, true, true⟩)) 0x40200000 (some ⟨0x300000, true, true⟩) := rfl
  rw [eq] at there
  by_cases second : i = 0x40200000
  · rw [second, update_self] at there
    exact .inl ⟨second, Option.some.inj there ▸ rfl⟩
  · rw [update_of_ne second] at there
    by_cases first : i = 0x401ff000
    · rw [first, update_self] at there
      exact .inr ⟨first, Option.some.inj there ▸ rfl⟩
    · rw [update_of_ne first] at there
      cases there

theorem bordered_run : Run pageStep Owned (pagingCreateUserSpace fun _ _ => 0, fun _ => none) bordering
    bordered := by
  refine .cons ?_ rfl (.cons ?_ rfl (.nil _))
  · rintro i x ⟨⟩
  · intro i x there _
    have eq : Function.update (fun _ => none) 0x401ff000 (some ⟨0x700000, true, true⟩) i =
      some x := there
    by_cases first : i = 0x401ff000
    · rw [first, update_self] at eq
      obtain rfl := Option.some.inj eq
      decide
    · rw [update_of_ne first] at eq
      cases eq

theorem bordered_buffer (small : len ≤ 0x1000) : KernelBuffer bordered.2 0x1000 len := by
  refine ⟨by decide, fun i x there => ?_⟩
  rcases bordered_pages there with ⟨-, frame⟩ | ⟨-, frame⟩
  · rw [frame]
    omega
  · rw [frame]
    omega

theorem bordered_covered (lower : 0x401ff000 ≤ uaddr) (upper : uaddr + len ≤ 0x40201000) :
    Covered bordered.2 true uaddr len := by
  intro a above below
  have base : pageBase a = 0x401ff000 ∨ pageBase a = 0x40200000 := by
    unfold pageBase atmPageSize
    omega
  refine ⟨window_iff.mpr (by omega), ?_⟩
  rcases base with base | base
  · exact ⟨⟨0x700000, true, true⟩, base ▸ rfl, fun _ => rfl⟩
  · exact ⟨⟨0x300000, true, true⟩, base ▸ rfl, fun _ => rfl⟩

theorem user_copies_border :
    (copyToUser bordered.1 (fun p => .ofNat p) 0x401ffffc 0x1000 8).2 = 0 ∧
      userByte bordered.2 (copyToUser bordered.1 (fun p => .ofNat p) 0x401ffffc 0x1000 8).1
        0x40200001 = some 5 := by
  have covered : Covered bordered.2 true 0x401ffffc 8 := bordered_covered (by decide) (by decide)
  obtain ⟨⟨found, -, done⟩, -⟩ :=
    user_copies bordered_run (fun p => .ofNat p) 0x401ffffc 8 (bordered_buffer (by decide))
  exact ⟨found.mpr covered, (done (found.mpr covered)).1 5 (by decide)⟩

end AtmKoala.Paging
