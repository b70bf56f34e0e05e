import AtmKoala.Elf.Rights
import AtmKoala.Linux.Mmap

/-!
The program break (`sys_brk_native`).

The heap of a task lies between the end of its image and `ATM_USER_ANON_BASE`. A call that
grows it maps the missing pages one by one; when it shrinks the pages stay.

* `overPages_growth`: what a growth does is known from the state before and from what the
  heap answers.
* `Heaped` is the invariant, and `brk_keeps`, `anon_keeps` that the calls of a task keep it.
* `program_break`: the pages of the heap are mapped and writable after every run; calls that
  leave the break leave the pages too, unless a growth fails behind its first missing page.
-/

namespace AtmKoala.Native.Brk

open Lib Paging Linux Elf

/-- `task_t`, what the calls read of it: the user space, `user_brk_base` and `user_brk`. -/
structure BrkTask where
  space : Space
  userBrkBase : Nat
  userBrk : Nat

/-- `sys_brk_native`, with what the heap answers. -/
def sysBrkNative (heap : Nat → Option Nat) (t : BrkTask) (requested : Nat) : BrkTask × Nat :=
  if !t.space.tables.valid ∨ t.userBrkBase = 0 then (t, 0)
  else if requested = 0 then (t, t.userBrk)
  else if requested < t.userBrkBase ∨ atmUserAnonBase ≤ requested then (t, t.userBrk)
  else
    let growTo := pageMask (requested + atmPageSize - 1)
    if atmUserAnonBase < growTo then (t, t.userBrk)
    else
      let mappedFrom := pageMask (t.userBrk + atmPageSize - 1)
      match overPages (mapPage heap false true true false) ((growTo - mappedFrom) / atmPageSize) mappedFrom
          t.space with
      | (space, some _) => ({ t with space }, t.userBrk)
      | (space, none) => ({ t with space, userBrk := requested }, requested)

/-- A call of a task that changes its space, with its arguments. -/
inductive Call where
  | brk (requested : UInt64)
  | mmap (addr len prot flags : UInt64) (fd : Int) (off : UInt64)
  | munmap (addr len : UInt64)
  | mprotect (addr len prot : UInt64)

def Call.perform (heap : Nat → Option Nat) (t : BrkTask) : Call → BrkTask
  | .brk requested => (sysBrkNative heap t requested.toNat).1
  | .mmap addr len prot flags fd off =>
    { t with space := (linuxMmapAnon heap t.space addr.toNat len.toNat prot.toNat flags.toNat fd off.toNat).1 }
  | .munmap addr len =>
    { t with space := { t.space with tables := (linuxMunmapAnon t.space.tables addr.toNat len.toNat).1 } }
  | .mprotect addr len prot =>
    { t with space :=
      { t.space with tables := (linuxMprotectAnon t.space.tables addr.toNat len.toNat prot.toNat).1 } }

/-- The task after a run. -/
def run (heap : Nat → Option Nat) (t : BrkTask) (calls : List Call) : BrkTask :=
  calls.foldl (Call.perform heap) t

/-! ### What is expected -/

/-- The break is in its range, and every byte of the heap can be read and written. -/
structure Break (t : BrkTask) : Prop where
  ordered : t.userBrkBase ≤ t.userBrk
  below : t.userBrk < atmUserAnonBase
  usable : ∀ va, t.userBrkBase ≤ va → va < t.userBrk →
    ∃ phys e, pagingUserTranslate t.space.tables va = some (phys, e) ∧ e.writable = true

/-- A call that leaves the break leaves the pages. -/
def LeavesPages (heap : Nat → Option Nat) (t : BrkTask) (requested : UInt64) : Prop :=
  ((Call.brk requested).perform heap t).userBrk = t.userBrk →
    ∀ va, pagingUserTranslate ((Call.brk requested).perform heap t).space.tables va =
      pagingUserTranslate t.space.tables va

/-- The requests for the missing ones of `n` pages: one for each page, and one more for the
first in a table that is not there. -/
def rowRequests (there table : Nat → Bool) : Nat → Nat → Nat
  | 0, _ => 0
  | n + 1, va =>
    if there va then rowRequests there table n (va + atmPageSize)
    else
      (if table (userPtSlot va) then 1 else 2) +
        rowRequests there (fun slot => slot = userPtSlot va || table slot) n (va + atmPageSize)

/-- The requests for the first missing one of `n` pages. -/
def firstRequests (there table : Nat → Bool) : Nat → Nat → Nat
  | 0, _ => 0
  | n + 1, va =>
    if there va then firstRequests there table n (va + atmPageSize)
    else if table (userPtSlot va) then 1 else 2

/-- The number of pages that a call looks at. -/
def growthPages (t : BrkTask) (requested : Nat) : Nat :=
  if requested = 0 ∨ requested < t.userBrkBase ∨ atmUserAnonBase ≤ requested then 0
  else (pageMask (requested + atmPageSize - 1) - pageMask (t.userBrk + atmPageSize - 1)) / atmPageSize

/-- The heap has memory for every missing page, or not for the first. -/
def AllOrNothing (heap : Nat → Option Nat) (t : BrkTask) (requested : Nat) : Prop :=
  let there va := (pagingUserTranslate t.space.tables va).isSome
  let table slot := (t.space.tables.userPt slot).isSome
  let n := growthPages t requested
  let start := pageMask (t.userBrk + atmPageSize - 1)
  (∀ i < rowRequests there table n start, heap (t.space.asked + i) ≠ none) ∨
    ∃ i < firstRequests there table n start, heap (t.space.asked + i) = none

variable {heap : Nat → Option Nat} {m : Space} {pages : PageMap} {va n : Nat} {t : BrkTask}
  {there table : Nat → Bool} {writable noExec : Bool}

/-! ### Growth -/

theorem pageRequests_eq (s : UserSpace) (va : Nat) :
    pageRequests s va = if (s.userPt (userPtSlot va)).isSome then 1 else 2 := by
  unfold pageRequests
  cases s.userPt (userPtSlot va) with
  | none => rfl
  | some table => rfl

theorem forall_lt_add {P : Nat → Prop} {c d : Nat} : (∀ i < c + d, P i) ↔ (∀ i < c, P i) ∧ ∀ i < d, P (c + i) := by
  constructor
  · intro all
    exact ⟨fun i less => all i (by omega), fun i less => all (c + i) (by omega)⟩
  · rintro ⟨first, rest⟩ i less
    rcases Nat.lt_or_ge i c with low | high
    · exact first i low
    · rw [← Nat.add_sub_cancel' high]
      exact rest (i - c) (by omega)

/-- **Growth.** Whether it succeeds and whether it maps a page, by what the heap answers. -/
theorem overPages_growth (heap : Nat → Option Nat) (there table : Nat → Bool) (writable noExec : Bool)
    (aligned : va % atmPageSize = 0) (inside : ∀ k < n, userWindow (va + k * atmPageSize) = true)
    (shows_ : Shows m.tables pages)
    (agrees : ∀ k < n, there (va + k * atmPageSize) = (pages (va + k * atmPageSize)).isSome)
    (tables : ∀ slot, table slot = (m.tables.userPt slot).isSome) :
    ∃ m' stop pages', overPages (mapPage heap false true writable noExec) n va m = (m', stop) ∧
      Shows m'.tables pages' ∧ (∀ a x, pages a = some x → pages' a = some x) ∧
      (stop = none ↔ ∀ i < rowRequests there table n va, heap (m.asked + i) ≠ none) ∧
      (pages' = pages ↔ rowRequests there table n va = 0 ∨
        ∃ i < firstRequests there table n va, heap (m.asked + i) = none) := by
  induction n generalizing va m pages table with
  | zero =>
    exact ⟨m, none, pages, rfl, shows_, fun _ _ mapped => mapped,
      iff_of_true rfl fun _ less => absurd less (Nat.not_lt_zero _), iff_of_true rfl (.inl rfl)⟩
  | succ n ih =>
    have here := inside 0 (Nat.succ_pos n)
    have first := agrees 0 (Nat.succ_pos n)
    rw [Nat.zero_mul, Nat.add_zero] at here first
    have aligned' : (va + atmPageSize) % atmPageSize = 0 := by rw [Nat.add_mod_right, aligned]
    have inside' : ∀ k < n, userWindow (va + atmPageSize + k * atmPageSize) = true := by
      intro k less
      rw [page_succ]
      exact inside (k + 1) (by omega)
    have agrees' : ∀ k < n, there (va + atmPageSize + k * atmPageSize) =
        (pages (va + atmPageSize + k * atmPageSize)).isSome := by
      intro k less
      rw [page_succ]
      exact agrees (k + 1) (by omega)
    obtain ⟨pages₁, shows₁, placed⟩ := mapPage_spec heap false true writable noExec shows_ here aligned
    rw [overPages, rowRequests, firstRequests]
    cases done : mapPage heap false true writable noExec m va with
    | mk m₁ rc =>
      rw [done] at shows₁ placed
      dsimp only at shows₁ ⊢
      cases placed with
      | kept mapped skips =>
        rw [if_neg (by decide), first, if_pos (Option.isSome_iff_ne_none.mpr mapped),
          if_pos (Option.isSome_iff_ne_none.mpr mapped)]
        exact ih _ aligned' inside' shows_ agrees' tables
      | @mapped _ page free granted mem asked answered tables' =>
        have none_ := free rfl
        rw [none_, Option.isSome_none] at first
        have later : ∀ k < n, there (va + atmPageSize + k * atmPageSize) =
            (Function.update pages va (some ⟨pageMask page, writable, noExec⟩)
              (va + atmPageSize + k * atmPageSize)).isSome := by
          intro k less
          rw [agrees' k less, Function.update_of_ne]
          unfold atmPageSize
          omega
        have made : ∀ slot, (slot = userPtSlot va || table slot) = (m₁.tables.userPt slot).isSome := by
          intro slot
          rw [tables', tables]
        obtain ⟨m', stop, pages', eq, shown, kept, all, -⟩ := ih _ aligned' inside' shows₁ later made
        rw [if_neg (by decide), first, if_neg Bool.false_ne_true, if_neg Bool.false_ne_true, tables,
          ← pageRequests_eq]
        have there := kept va _ (Function.update_self ..)
        have given : ∀ i < pageRequests m.tables va, heap (m.asked + i) ≠ none :=
          fun i less null => answered ⟨m.asked + i, by omega, by omega, null⟩
        refine ⟨m', stop, pages', eq, shown, fun a x before => kept a x ?_, ?_, iff_of_false ?_ ?_⟩
        · rw [Function.update_of_ne]
          · exact before
          · rintro rfl
            cases none_.symm.trans before
        · rw [all, asked, forall_lt_add, and_iff_right given]
          simp only [Nat.add_assoc]
        · rintro rfl
          cases none_.symm.trans there
        · rintro (zero | ⟨i, less, null⟩)
          · unfold pageRequests at zero
            split at zero <;> omega
          · exact given i less null
      | refused free asked most ranOut mem =>
        rw [free rfl, Option.isSome_none] at first
        obtain ⟨i, low, high, null⟩ := ranOut
        have early : ∃ j < pageRequests m.tables va, heap (m.asked + j) = none :=
          ⟨i - m.asked, by omega, by rw [Nat.add_sub_cancel' low]; exact null⟩
        rw [if_pos (by decide), first, if_neg Bool.false_ne_true, if_neg Bool.false_ne_true, tables,
          ← pageRequests_eq]
        refine ⟨m₁, some va, pages, rfl, shows₁, fun _ _ mapped => mapped, iff_of_false (by rintro ⟨⟩) ?_,
          iff_of_true rfl (.inr early)⟩
        obtain ⟨j, less, null'⟩ := early
        exact fun all => all j (by omega) null'

/-! ### The invariant -/

/-- The heap of a task: the pages up to the break are mapped, and every page that is mapped
between the base and `ATM_USER_ANON_BASE` can be written. -/
structure Heaped (t : BrkTask) (pages : PageMap) : Prop where
  shows_ : Shows t.space.tables pages
  aligned : t.userBrkBase % atmPageSize = 0
  low : atmUserBase ≤ t.userBrkBase
  ordered : t.userBrkBase ≤ t.userBrk
  below : t.userBrk < atmUserAnonBase
  mapped : ∀ va, va % atmPageSize = 0 → t.userBrkBase ≤ va → va < t.userBrk → pages va ≠ none
  writable : ∀ va x, t.userBrkBase ≤ va → va < atmUserAnonBase → pages va = some x → x.writable = true

variable {pages' : PageMap} {requested : Nat}

theorem Heaped.break_ (heaped : Heaped t pages) : Break t := by
  refine ⟨heaped.ordered, heaped.below, fun va low high => ?_⟩
  have aligned : pageBase va % atmPageSize = 0 := Nat.mul_mod_left _ _
  have base : t.userBrkBase ≤ pageBase va ∧ pageBase va ≤ va := by
    have := heaped.aligned
    unfold pageBase atmPageSize at *
    omega
  have some_ := heaped.mapped _ aligned base.1 (by omega)
  obtain ⟨x, there⟩ := Option.ne_none_iff_exists'.mp some_
  rw [heaped.shows_.translate_eq, there]
  have below := heaped.below
  exact ⟨_, _, rfl, heaped.writable _ x base.1 (by omega) there⟩

/-- Pages that `brk` has mapped, and a break that the pages reach. -/
theorem Heaped.fill {space : Space} {start k brk : Nat} (heaped : Heaped t pages) (shown : Shows space.tables pages')
    (filled : Filled true false start k pages pages') (ordered : t.userBrkBase ≤ brk)
    (below : brk < atmUserAnonBase)
    (reached : ∀ va, va % atmPageSize = 0 → t.userBrkBase ≤ va → va < brk → pages' va ≠ none) :
    Heaped ⟨space, t.userBrkBase, brk⟩ pages' := by
  refine ⟨shown, heaped.aligned, heaped.low, ordered, below, reached, fun va x low high there => ?_⟩
  cases was : pages va with
  | some y =>
    obtain rfl := Option.some.inj ((filled.kept va y was).symm.trans there)
    exact heaped.writable va y low high was
  | none =>
    by_cases inside : ∃ j < k, va = start + j * atmPageSize
    · obtain ⟨j, less, rfl⟩ := inside
      obtain ⟨f, new⟩ := filled.new j less was
      obtain rfl := Option.some.inj (new.symm.trans there)
      rfl
    · rw [filled.others va fun j less same => inside ⟨j, less, same⟩, was] at there
      cases there

/-- The pages between the break and the page that the request needs last. -/
theorem growth_bounds (heaped : Heaped t pages) (above : requested < atmUserAnonBase) :
    pageMask (requested + atmPageSize - 1) ≤ atmUserAnonBase ∧
    requested ≤ pageMask (requested + atmPageSize - 1) ∧
    t.userBrk ≤ pageMask (t.userBrk + atmPageSize - 1) ∧
    pageMask (t.userBrk + atmPageSize - 1) < t.userBrk + atmPageSize ∧
    pageMask (t.userBrk + atmPageSize - 1) % atmPageSize = 0 ∧
    (pageMask (requested + atmPageSize - 1) - pageMask (t.userBrk + atmPageSize - 1)) / atmPageSize *
      atmPageSize = pageMask (requested + atmPageSize - 1) - pageMask (t.userBrk + atmPageSize - 1) := by
  have below := heaped.below
  rw [anonBase_eq] at *
  unfold pageMask atmPageSize
  omega

/-- **`brk`.** The invariant is kept. If the break stays the pages stay, exactly if there is
memory for every missing page or not for the first. -/
theorem sysBrkNative_spec (heap : Nat → Option Nat) (heaped : Heaped t pages) (requested : Nat) :
    ∃ pages', Heaped (sysBrkNative heap t requested).1 pages' ∧
      (((sysBrkNative heap t requested).1.userBrk = t.userBrk → pages' = pages) ↔
        AllOrNothing heap t requested) := by
  have low := heaped.low
  have idle : growthPages t requested = 0 → AllOrNothing heap t requested := by
    intro zero
    unfold AllOrNothing
    rw [zero]
    exact .inl fun _ less => absurd less (Nat.not_lt_zero _)
  unfold sysBrkNative
  rw [if_neg (by
    rw [heaped.shows_.valid]
    unfold atmUserBase at low
    simp
    omega)]
  split
  · rename_i zero
    exact ⟨pages, heaped, iff_of_true (fun _ => rfl) (idle (if_pos (.inl zero)))⟩
  · rename_i some_
    split
    · rename_i outside
      exact ⟨pages, heaped, iff_of_true (fun _ => rfl) (idle (if_pos (.inr outside)))⟩
    · rename_i inside
      have count : growthPages t requested =
          (pageMask (requested + atmPageSize - 1) - pageMask (t.userBrk + atmPageSize - 1)) / atmPageSize :=
        if_neg (not_or.mpr ⟨some_, inside⟩)
      rw [not_or, Nat.not_lt, Nat.not_le] at inside
      obtain ⟨top, reach, above, near, aligned, whole⟩ := growth_bounds heaped inside.2
      dsimp only
      rw [if_neg (Nat.not_lt.mpr top)]
      unfold AllOrNothing
      rw [count]
      have still : requested = t.userBrk →
          pageMask (requested + atmPageSize - 1) = pageMask (t.userBrk + atmPageSize - 1) := fun same => by rw [same]
      generalize pageMask (requested + atmPageSize - 1) = growTo at *
      generalize pageMask (t.userBrk + atmPageSize - 1) = start at *
      generalize (growTo - start) / atmPageSize = n at *
      have row : ∀ k < n, userWindow (start + k * atmPageSize) = true := by
        intro k less
        have ordered := heaped.ordered
        rw [anonBase_eq] at top
        rw [window_iff]
        unfold atmUserBase at low
        unfold atmPageSize at *
        omega
      have agrees : ∀ k < n, (pagingUserTranslate t.space.tables (start + k * atmPageSize)).isSome =
          (pages (start + k * atmPageSize)).isSome := by
        intro k less
        rw [heaped.shows_.translate_eq, pageBase_of_aligned (row_aligned aligned k), Option.isSome_map]
      obtain ⟨k, m₁, pages₁, shown₁, filled, -, rest⟩ := overPages_spec heap false true true false aligned row
        heaped.shows_ (.inl rfl)
      obtain ⟨m', stop, pages', eq, shown, kept, all, same⟩ := overPages_growth heap
        (fun va => (pagingUserTranslate t.space.tables va).isSome)
        (fun slot => (t.space.tables.userPt slot).isSome) true false aligned row heaped.shows_ agrees fun _ => rfl
      obtain rfl := shown.unique (by
        rcases rest with ⟨eq₁, -⟩ | ⟨eq₁, -⟩
        · obtain ⟨rfl, -⟩ := Prod.mk.inj (eq.symm.trans eq₁)
          exact shown₁
        · obtain ⟨rfl, -⟩ := Prod.mk.inj (eq.symm.trans eq₁)
          exact shown₁)
      have old : ∀ va, va % atmPageSize = 0 → t.userBrkBase ≤ va → va < t.userBrk → pages' va ≠ none := by
        intro va aligned' lower upper
        obtain ⟨x, there⟩ := Option.ne_none_iff_exists'.mp (heaped.mapped va aligned' lower upper)
        rw [kept va x there]
        exact Option.some_ne_none x
      dsimp only
      rw [eq]
      rcases rest with ⟨eq₁, rfl, -⟩ | ⟨eq₁, less, -⟩
      · obtain ⟨rfl, rfl⟩ := Prod.mk.inj (eq.symm.trans eq₁)
        refine ⟨pages', heaped.fill shown filled inside.1 inside.2 fun va aligned' lower upper => ?_,
          iff_of_true (fun stays => ?_) (.inl (all.mp rfl))⟩
        · by_cases below : va < t.userBrk
          · exact old va aligned' lower below
          · obtain ⟨j, less, rfl⟩ : ∃ j < k, va = start + j * atmPageSize := by
              refine ⟨(va - start) / atmPageSize, ?_, ?_⟩
              · unfold atmPageSize at *
                omega
              · unfold atmPageSize at *
                omega
            cases was : pages (start + j * atmPageSize) with
            | none =>
              obtain ⟨f, new⟩ := filled.new j less was
              rw [new]
              exact Option.some_ne_none _
            | some x =>
              rw [kept _ x was]
              exact Option.some_ne_none x
        · obtain rfl : k = 0 := by
            have ends := still stays
            unfold atmPageSize at whole
            omega
          exact funext fun va => filled.others va fun _ less => absurd less (Nat.not_lt_zero _)
      · obtain ⟨rfl, rfl⟩ := Prod.mk.inj (eq.symm.trans eq₁)
        refine ⟨pages', heaped.fill shown filled heaped.ordered heaped.below old, ?_⟩
        have fails := fun every => Option.some_ne_none _ (all.mpr every)
        rw [or_iff_right fails, forall_prop_of_true rfl, same]
        refine or_iff_right fun zero => fails fun i less => ?_
        rw [zero] at less
        exact absurd less (Nat.not_lt_zero _)

/-! ### Runs -/

/-- Calls that leave the heap and the break. -/
theorem Heaped.above {space : Space} (heaped : Heaped t pages) (shown : Shows space.tables pages')
    (kept : BelowKept pages pages') : Heaped { t with space } pages' := by
  have below := heaped.below
  refine ⟨shown, heaped.aligned, heaped.low, heaped.ordered, below, fun va aligned low high => ?_,
    fun va x low high there => ?_⟩
  · have high : va < t.userBrk := high
    rw [kept va (by omega)]
    exact heaped.mapped va aligned low high
  · rw [kept va high] at there
    exact heaped.writable va x low high there

/-- **Step lemma.** -/
theorem perform_keeps (heap : Nat → Option Nat) (heaped : Heaped t pages) (call : Call) :
    ∃ pages', Heaped (call.perform heap t) pages' := by
  cases call with
  | brk requested =>
    obtain ⟨pages', kept, -⟩ := sysBrkNative_spec heap heaped requested.toNat
    exact ⟨pages', kept⟩
  | mmap addr len prot flags fd off =>
    obtain ⟨pages', shown, kept⟩ := linuxMmapAnon_below heaped.shows_ addr.toNat len.toNat prot.toNat
      flags.toNat fd off.toNat
    exact ⟨pages', heaped.above shown kept⟩
  | munmap addr len =>
    obtain ⟨pages', shown, kept⟩ := linuxMunmapAnon_below heaped.shows_ addr.toNat_lt
    exact ⟨pages', heaped.above shown kept⟩
  | mprotect addr len prot =>
    obtain ⟨pages', shown, kept⟩ := linuxMprotectAnon_below heaped.shows_ addr.toNat_lt
    exact ⟨pages', heaped.above shown kept⟩

/-- **Run lemma.** -/
theorem run_keeps (heaped : Heaped t pages) (calls : List Call) : ∃ pages', Heaped (run heap t calls) pages' := by
  induction calls generalizing t pages with
  | nil => exact ⟨pages, heaped⟩
  | cons call calls ih =>
    obtain ⟨pages', kept⟩ := perform_keeps heap heaped call
    exact ih kept

theorem translate_inj {s s' : UserSpace} (shows_ : Shows s pages) (shows' : Shows s' pages')
    (same : ∀ va, pagingUserTranslate s' va = pagingUserTranslate s va) : pages' = pages := by
  funext va
  by_cases proper : userWindow va = true ∧ va % atmPageSize = 0
  · have equal := same va
    rw [shows_.translate_eq, shows'.translate_eq, pageBase_of_aligned proper.2, proper.2] at equal
    refine Option.map_injective (fun x y eq => ?_) equal
    obtain ⟨frame, entry⟩ := Prod.mk.inj eq
    obtain ⟨-, -, writable, -, noExec⟩ := Pte.mk.inj entry
    cases x
    cases y
    exact congr (congr (congrArg Page.mk frame) writable) noExec
  · have nothing : ∀ {s : UserSpace} {pages : PageMap}, Shows s pages → pages va = none := by
      intro s pages shown
      by_contra some_
      exact proper (shown.outside va some_)
    rw [nothing shows_, nothing shows']

theorem leavesPages_iff (heaped : Heaped t pages) (requested : UInt64) :
    LeavesPages heap t requested ↔ AllOrNothing heap t requested.toNat := by
  obtain ⟨pages', kept, exactly⟩ := sysBrkNative_spec heap heaped requested.toNat
  rw [← exactly]
  refine imp_congr_right fun stays => ⟨fun same => translate_inj heaped.shows_ kept.shows_ same, ?_⟩
  rintro rfl va
  have after := kept.shows_.translate_eq va
  exact after.trans (heaped.shows_.translate_eq va).symm

/-! ### The start -/

/-- The break that `native_app_spawn_memory_common` sets. -/
def initialBrk (image : Image) : Nat := pageMask (image.loadEnd + atmPageSize - 1)

/-- A task that has been created from an image, its break below `ATM_USER_ANON_BASE`. -/
def Started (t : BrkTask) : Prop :=
  ∃ heap buf m m' image, Shows m.tables (fun _ => none) ∧ elf64LoadUser heap buf m = .ok (m', .ok image) ∧
    t.space.tables = m'.tables ∧ t.userBrkBase = initialBrk image ∧ t.userBrk = initialBrk image ∧
    initialBrk image < atmUserAnonBase

theorem Started.heaped (started : Started t) : ∃ pages, Heaped t pages := by
  obtain ⟨heap, buf, m, m', image, fresh, accepted, tables, base, brk, below⟩ := started
  obtain ⟨proper, pages, pages', first, shown, others, -⟩ := loadUser_pages fresh accepted
  obtain ⟨extent, -, p, mem, loads, last⟩ := loadUser_extent accepted
  have low := (proper p mem loads).low
  have high := (proper p mem loads).high
  have bounds : image.loadEnd ≤ initialBrk image := by
    rw [stackTop_eq] at high
    unfold initialBrk pageMask atmPageSize
    omega
  refine ⟨pages', tables ▸ shown, ?_, ?_, ?_, ?_, fun va _ from_ upto => ?_, fun va x from_ upto there => ?_⟩
  · rw [base]
    exact pageMask_mod _
  · omega
  · omega
  · omega
  · omega
  · have aligned := (shown.outside va (there ▸ Option.some_ne_none x)).2
    have differ : va ≠ atmUserStackTop := by
      rintro rfl
      rw [stackTop_eq, anonBase_eq] at upto
      omega
    rw [others va differ] at there
    have origin := first va aligned
    cases found : firstOn (segments buf) va with
    | none =>
      rw [found] at origin
      cases origin.symm.trans there
    | some q =>
      obtain ⟨mem', overlaps⟩ := of_firstOn found
      have := (extent q mem' overlaps.1).2
      have := overlaps.2.2
      omega

/-- **Program break.** After every run of a task the break is in its range and every byte of
the heap can be read and written. The calls of `brk` in the run that leave the break leave
the pages exactly if at each of them the heap has memory for all missing pages or not for
the first. -/
theorem program_break (heap : Nat → Option Nat) (t : BrkTask) (calls : List Call) (started : Started t) :
    Break (run heap t calls) ∧
    ((∀ before requested rest, calls = before ++ .brk requested :: rest →
        LeavesPages heap (run heap t before) requested) ↔
      ∀ before requested rest, calls = before ++ .brk requested :: rest →
        AllOrNothing heap (run heap t before) requested.toNat) := by
  obtain ⟨pages, heaped⟩ := started.heaped
  have kept : ∀ calls, ∃ pages', Heaped (run heap t calls) pages' := run_keeps heaped
  obtain ⟨pages', after⟩ := kept calls
  refine ⟨after.break_, forall_congr' fun before => forall_congr' fun requested => forall_congr' fun rest =>
    imp_congr_right fun _ => ?_⟩
  obtain ⟨pages', after⟩ := kept before
  exact leavesPages_iff after requested

/-- The task of an image with one page. -/
def oneTask (heap : Nat → Option Nat) : Option BrkTask :=
  match elf64LoadUser heap codeOnly newSpace with
  | .ok (space, .ok image) => some ⟨space, initialBrk image, initialBrk image⟩
  | _ => none

theorem started_oneTask (created : oneTask heap = some t) (below : t.userBrkBase < atmUserAnonBase) : Started t := by
  unfold oneTask at created
  split at created
  · rename_i space image accepted
    obtain rfl := Option.some.inj created
    exact ⟨heap, codeOnly, newSpace, space, image, newSpace_shows, accepted, rfl, rfl, rfl, below⟩
  · cases created

/-- With memory for one page, a growth by two maps the first and leaves the break. -/
theorem growth_leaves_page :
    ∃ t, oneTask (pagesFrom 0x800000 5) = some t ∧ Started t ∧
      ((Call.brk 0x40003000).perform (pagesFrom 0x800000 5) t).userBrk = t.userBrk ∧
      pagingUserTranslate t.space.tables 0x40001000 = none ∧
      (pagingUserTranslate ((Call.brk 0x40003000).perform (pagesFrom 0x800000 5) t).space.tables 0x40001000).isSome ∧
      ¬LeavesPages (pagesFrom 0x800000 5) t 0x40003000 := by
  have done : (match oneTask (pagesFrom 0x800000 5) with
      | some t =>
        let t' := (Call.brk 0x40003000).perform (pagesFrom 0x800000 5) t
        decide (t.userBrkBase < atmUserAnonBase ∧ t'.userBrk = t.userBrk ∧
          (pagingUserTranslate t.space.tables 0x40001000).isSome = false ∧
          (pagingUserTranslate t'.space.tables 0x40001000).isSome = true)
      | none => false) = true := by
    decide +kernel
  split at done
  · rename_i t created
    obtain ⟨below, stays, before, after⟩ := of_decide_eq_true done
    have nothing := Option.not_isSome_iff_eq_none.mp (Bool.eq_false_iff.mp before)
    refine ⟨t, created, started_oneTask created below, stays, nothing, after, fun leaves => ?_⟩
    rw [leaves stays 0x40001000, nothing] at after
    cases after
  · cases done

theorem program_break_one :
    ∃ t, Started t ∧ Break (run (pagesFrom 0x800000 16) t [.brk 0x40003000, .munmap 0x40001000 0x1000]) ∧
      (run (pagesFrom 0x800000 16) t [.brk 0x40003000, .munmap 0x40001000 0x1000]).userBrk = 0x40003000 := by
  have done : (match oneTask (pagesFrom 0x800000 16) with
      | some t =>
        decide (t.userBrkBase < atmUserAnonBase ∧
          (run (pagesFrom 0x800000 16) t [.brk 0x40003000, .munmap 0x40001000 0x1000]).userBrk = 0x40003000)
      | none => false) = true := by
    decide +kernel
  split at done
  · rename_i t created
    obtain ⟨below, moved⟩ := of_decide_eq_true done
    have started := started_oneTask created below
    exact ⟨t, started, (program_break _ t _ started).1, moved⟩
  · cases done

end AtmKoala.Native.Brk
