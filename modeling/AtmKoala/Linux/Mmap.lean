import Mathlib.Data.Nat.Bitwise
import AtmKoala.Paging.Fresh

/-!
Anonymous mappings of Linux programs (`linux_mmap_anon`, `linux_munmap_anon`,
`linux_mprotect_anon`).

Lengths are 64-bit numbers. `linux_page_span` rounds them up with `ATM_PAGE_MASK`, which
is the mask of the address bits of a page table entry and drops the bits from 2^52 on.

* `linuxFindFree_spec`: the search finds the highest free span.
* `linuxMmapAnon_spec`: what `mmap` does, with memory and without.
* `forPages_spec`: a loop over pages changes each of them and nothing else.
* `anon_spans`: the three calls together.
-/

namespace AtmKoala.Linux

open Lib Paging

/-- `ATM_ENOMEM` and `ATM_EINVAL`. -/
def enomem : Nat := 12
def einval : Nat := 22

/-! ### The calls -/

/-- A loop over the `n` pages from `va` on that looks for one that fails a test. -/
def allPages (test : Nat → Bool) : Nat → Nat → Bool
  | 0, _ => true
  | n + 1, va => if test va then allPages test n (va + atmPageSize) else false

/-- A loop over the `n` pages from `va` on that changes each of them. -/
def forPages (f : UserSpace → Nat → UserSpace) : Nat → Nat → UserSpace → UserSpace
  | 0, _, s => s
  | n + 1, va, s => forPages f n (va + atmPageSize) (f s va)

/-- `linux_page_span`: the end of the span. -/
def linuxPageSpan (addr len : Nat) : Option Nat :=
  if len = 0 ∨ addr % atmPageSize ≠ 0 ∨ 2 ^ 64 - 1 - (atmPageSize - 1) < len then none
  else
    let span := pageMask (len + atmPageSize - 1)
    let end_ := (addr + span) % 2 ^ 64
    if end_ ≤ addr ∨ addr < atmUserAnonBase ∨ atmUserStackTop < end_ then none else some end_

def linuxRangeIsFree (s : UserSpace) (start end_ : Nat) : Bool :=
  allPages (fun va => (pagingUserTranslate s va).isNone) ((end_ - start) / atmPageSize) start

/-- `linux_pte_flags`: `ATM_PTE_W` and `ATM_PTE_NX`. -/
def linuxPteFlags (prot : Nat) : Bool × Bool := (prot.testBit 1, !prot.testBit 2)

/-- The search of `linux_mmap_anon`, downwards; `fuel` is at least the number of places. -/
def linuxFindFree (s : UserSpace) (span : Nat) : Nat → Nat → Option Nat
  | 0, _ => none
  | fuel + 1, start =>
    if linuxRangeIsFree s start (start + span) then some start
    else if start < atmUserAnonBase + atmPageSize then none
    else linuxFindFree s span fuel (start - atmPageSize)

/-- The second half of `linux_mmap_anon`: the length has been rounded to `span`, and the
search begins at `start`. -/
def linuxMmapSpan (heap : Nat → Option Nat) (m : Space) (span prot start : Nat) : Space × Except Nat Nat :=
  match linuxFindFree m.tables span (start / atmPageSize) start with
  | none => (m, .error enomem)
  | some start =>
    match overPages (mapPage heap true false (linuxPteFlags prot).1 (linuxPteFlags prot).2)
        (span / atmPageSize) start m with
    | (m, some va) =>
      -- rollback
      let tables := forPages (fun s va => (pagingReleaseUserPage s va).1) ((va - start) / atmPageSize) start
        m.tables
      ({ m with tables }, .error enomem)
    | (m, none) => (m, .ok start)

/-- `linux_mmap_anon`, with what the heap answers. -/
def linuxMmapAnon (heap : Nat → Option Nat) (m : Space) (addr len prot flags : Nat) (fd : Int) (off : Nat) :
    Space × Except Nat Nat :=
  if !m.tables.valid ∨ addr ≠ 0 ∨ fd ≠ -1 ∨ off ≠ 0 ∨ !flags.testBit 1 ∨ !flags.testBit 5 ∨
      flags.testBit 4 ∨ prot / 8 ≠ 0 ∨ prot = 0 then (m, .error einval)
  else if atmUserStackTop - atmUserAnonBase < len ∨ 2 ^ 64 - 1 - (atmPageSize - 1) < len then
    (m, .error enomem)
  else if pageMask (len + atmPageSize - 1) = 0 ∨
      atmUserStackTop - atmUserAnonBase < pageMask (len + atmPageSize - 1) then (m, .error enomem)
  else
    linuxMmapSpan heap m (pageMask (len + atmPageSize - 1)) prot
      (pageMask (atmUserStackTop - pageMask (len + atmPageSize - 1)))

def linuxMunmapAnon (s : UserSpace) (addr len : Nat) : UserSpace × Except Nat Nat :=
  if !s.valid then (s, .error einval)
  else
    match linuxPageSpan addr len with
    | none => (s, .error einval)
    | some end_ =>
      let n := (end_ - addr) / atmPageSize
      if !allPages (fun va => (pagingUserTranslate s va).isSome) n addr then (s, .error einval)
      else (forPages (fun s va => (pagingReleaseUserPage s va).1) n addr s, .ok 0)

def linuxMprotectAnon (s : UserSpace) (addr len prot : Nat) : UserSpace × Except Nat Nat :=
  if !s.valid ∨ prot = 0 ∨ prot / 8 ≠ 0 then (s, .error einval)
  else
    match linuxPageSpan addr len with
    | none => (s, .error einval)
    | some end_ =>
      let n := (end_ - addr) / atmPageSize
      let (writable, noExec) := linuxPteFlags prot
      if !allPages (fun va => (pagingUserTranslate s va).isSome) n addr then (s, .error einval)
      else (forPages (fun s va => (pagingProtectUserPage s va writable noExec).1) n addr s, .ok 0)

/-! ### What is expected -/

/-- The number of pages of a span of `len` bytes. -/
def pagesOf (len : Nat) : Nat := (len + atmPageSize - 1) / atmPageSize

/-- A span of pages that is free. -/
structure FreeSpan (pages : PageMap) (len start : Nat) : Prop where
  some_ : 0 < len
  aligned : start % atmPageSize = 0
  low : atmUserAnonBase ≤ start
  high : start + pagesOf len * atmPageSize ≤ atmUserStackTop
  free : ∀ k < pagesOf len, pages (start + k * atmPageSize) = none

/-- A call that maps the highest free span with zeros, or fails without an effect because
there is none or the heap has no memory. -/
inductive Maps (heap : Nat → Option Nat) (m : Space) (pages : PageMap) (len : Nat) (writable noExec : Bool) :
    Space × Except Nat Nat → Prop where
  | mapped {m' : Space} {start : Nat} {pages' : PageMap} (free : FreeSpan pages len start)
    (highest : ∀ other, FreeSpan pages len other → other ≤ start) (shown : Shows m'.tables pages')
    (filled : Filled writable noExec start (pagesOf len) pages pages')
    (zeros : ∀ k < pagesOf len, Blank pages' m'.mem (start + k * atmPageSize))
    (answered : ¬RanOut heap m m') : Maps heap m pages len writable noExec (m', .ok start)
  | failed {m' : Space} (shown : Shows m'.tables pages)
    (why : (∀ start, ¬FreeSpan pages len start) ∨ RanOut heap m m') :
    Maps heap m pages len writable noExec (m', .error enomem)

/-- Every page of the span is changed by `f` and no other, or none is. -/
def AllOrNone (f : Page → Option Page) (pages pages' : PageMap) (addr len : Nat) : Prop :=
  pages' = pages ∨
  (∀ k < pagesOf len, ∃ x, pages (addr + k * atmPageSize) = some x ∧ pages' (addr + k * atmPageSize) = f x) ∧
    ∀ a, (∀ k < pagesOf len, a ≠ addr + k * atmPageSize) → pages' a = pages a

variable {heap : Nat → Option Nat} {s : UserSpace} {m : Space} {pages pages' : PageMap}
  {va n start span len addr fuel : Nat} {test : Nat → Bool}

/-! ### Loops over pages -/

theorem page_succ (va k : Nat) : va + atmPageSize + k * atmPageSize = va + (k + 1) * atmPageSize := by
  rw [Nat.succ_mul]
  omega

theorem allPages_iff : allPages test n va = true ↔ ∀ k < n, test (va + k * atmPageSize) = true := by
  induction n generalizing va with
  | zero => exact iff_of_true rfl fun _ less => absurd less (Nat.not_lt_zero _)
  | succ n ih =>
    rw [allPages]
    constructor
    · intro all k less
      split at all
      · rename_i first
        cases k with
        | zero =>
          rw [Nat.zero_mul]
          exact first
        | succ k =>
          rw [← page_succ]
          exact ih.mp all k (by omega)
      · cases all
    · intro each
      have first := each 0 (Nat.succ_pos n)
      rw [Nat.zero_mul, Nat.add_zero] at first
      rw [if_pos first, ih]
      intro k less
      rw [page_succ]
      exact each (k + 1) (by omega)

theorem pageBase_of_aligned (aligned : va % atmPageSize = 0) : pageBase va = va :=
  Nat.div_mul_cancel (Nat.dvd_of_mod_eq_zero aligned)

/-- Translation of the address of a page. -/
theorem translate_page (shows_ : Shows s pages) (aligned : va % atmPageSize = 0) :
    (pagingUserTranslate s va).isSome = true ↔ pages va ≠ none := by
  rw [shows_.translate_eq, pageBase_of_aligned aligned, Option.isSome_map]
  exact Option.isSome_iff_ne_none

theorem row_aligned (aligned : va % atmPageSize = 0) (k : Nat) : (va + k * atmPageSize) % atmPageSize = 0 := by
  rw [Nat.add_mul_mod_self_right, aligned]

/-- What a loop makes of the pages if each round has its effect on one page. -/
theorem forPages_spec {f : UserSpace → Nat → UserSpace} {g : Option Page → Option Page}
    (step : ∀ {s pages va}, Shows s pages → va % atmPageSize = 0 →
      Shows (f s va) (Function.update pages va (g (pages va))))
    (shows_ : Shows s pages) (aligned : va % atmPageSize = 0) :
    ∃ pages', Shows (forPages f n va s) pages' ∧
      (∀ k < n, pages' (va + k * atmPageSize) = g (pages (va + k * atmPageSize))) ∧
      ∀ a, (∀ k < n, a ≠ va + k * atmPageSize) → pages' a = pages a := by
  induction n generalizing s pages va with
  | zero => exact ⟨pages, shows_, fun _ less => absurd less (Nat.not_lt_zero _), fun _ _ => rfl⟩
  | succ n ih =>
    have aligned' : (va + atmPageSize) % atmPageSize = 0 := by rw [Nat.add_mod_right, aligned]
    obtain ⟨pages', shown, changed, others⟩ := ih (step shows_ aligned) aligned'
    refine ⟨pages', shown, fun k less => ?_, fun a other => ?_⟩
    · cases k with
      | zero =>
        rw [Nat.zero_mul, Nat.add_zero, others, Function.update_self]
        intro k _ same
        rw [page_succ] at same
        unfold atmPageSize at same
        omega
      | succ k =>
        rw [← page_succ, changed k (by omega), Function.update_of_ne]
        rw [page_succ]
        unfold atmPageSize
        omega
    · have differ : a ≠ va := by
        have := other 0 (Nat.succ_pos n)
        rwa [Nat.zero_mul] at this
      rw [others, Function.update_of_ne differ]
      intro k less
      rw [page_succ]
      exact other (k + 1) (by omega)

/-- A call whose effect is nothing on a page that is not mapped, and which succeeds on the
others. -/
theorem perform_step (shows_ : Shows s pages) (op : Op) (needs : Accepted s pages op ↔ pages op.va ≠ none)
    (nothing : op.page none = none) :
    Shows (op.perform s).1 (Function.update pages op.va (op.page (pages op.va))) := by
  have performed := shows_.perform op
  by_cases mapped : pages op.va ≠ none
  · rw [if_pos ((shows_.accepted op).mpr (needs.mpr mapped))] at performed
    exact performed
  · rw [if_neg fun done => mapped (needs.mp ((shows_.accepted op).mp done))] at performed
    have none_ : pages op.va = none := not_not.mp mapped
    rw [none_, nothing, ← none_, Function.update_eq_self]
    exact performed

theorem release_step (shows_ : Shows s pages) :
    Shows (pagingReleaseUserPage s va).1 (Function.update pages va none) :=
  perform_step shows_ (.release va) Iff.rfl rfl

theorem protect_step (writable noExec : Bool) (shows_ : Shows s pages) :
    Shows (pagingProtectUserPage s va writable noExec).1
      (Function.update pages va ((pages va).map fun x => { x with writable, noExec })) :=
  perform_step shows_ (.protect va writable noExec) Iff.rfl rfl

/-! ### The search -/

theorem linuxRangeIsFree_iff (shows_ : Shows s pages) (whole : span = n * atmPageSize)
    (aligned : start % atmPageSize = 0) :
    linuxRangeIsFree s start (start + span) = true ↔ ∀ k < n, pages (start + k * atmPageSize) = none := by
  unfold linuxRangeIsFree
  rw [Nat.add_sub_cancel_left, whole, Nat.mul_div_cancel _ (by decide), allPages_iff]
  refine forall_congr' fun k => forall_congr' fun less => ?_
  have mapped := translate_page shows_ (row_aligned aligned k)
  rw [Option.isNone_iff_eq_none, ← not_iff_not, ← ne_eq, ← Option.isSome_iff_ne_none]
  exact mapped

/-- The places where `n` pages are free. -/
def FreeAt (pages : PageMap) (n start : Nat) : Prop :=
  start % atmPageSize = 0 ∧ atmUserAnonBase ≤ start ∧ ∀ k < n, pages (start + k * atmPageSize) = none

/-- Of the places up to `start` the search finds the highest that is free. -/
theorem linuxFindFree_spec (shows_ : Shows s pages) (whole : span = n * atmPageSize)
    (aligned : start % atmPageSize = 0) (low : atmUserAnonBase ≤ start)
    (enough : (start - atmUserAnonBase) / atmPageSize < fuel) :
    linuxFindFree s span fuel start = none ∧ (∀ other ≤ start, ¬FreeAt pages n other) ∨
    ∃ found ≤ start, linuxFindFree s span fuel start = some found ∧ FreeAt pages n found ∧
      ∀ other ≤ start, FreeAt pages n other → other ≤ found := by
  induction fuel generalizing start with
  | zero => exact absurd enough (Nat.not_lt_zero _)
  | succ fuel ih =>
    have free := linuxRangeIsFree_iff shows_ whole aligned
    rw [linuxFindFree]
    by_cases here : linuxRangeIsFree s start (start + span) = true
    · rw [if_pos here]
      exact .inr ⟨start, Nat.le_refl _, rfl, ⟨aligned, low, free.mp here⟩, fun other le _ => le⟩
    · have notHere : ¬FreeAt pages n start := fun at_ => here (free.mpr at_.2.2)
      have low' := low
      have enough' := enough
      rw [anonBase_eq] at low' enough'
      unfold atmPageSize at enough'
      have aligned' : start % 0x1000 = 0 := aligned
      rw [if_neg here]
      by_cases bottom : start < atmUserAnonBase + atmPageSize
      · rw [if_pos bottom]
        refine .inl ⟨rfl, fun other le at_ => ?_⟩
        have aligned'' : other % 0x1000 = 0 := at_.1
        have low'' := at_.2.1
        have same : other = start := by
          rw [anonBase_eq] at bottom low''
          unfold atmPageSize at bottom
          omega
        exact notHere (same ▸ at_)
      · rw [if_neg bottom]
        have smaller : (start - atmPageSize) % atmPageSize = 0 ∧ atmUserAnonBase ≤ start - atmPageSize ∧
            (start - atmPageSize - atmUserAnonBase) / atmPageSize < fuel := by
          rw [anonBase_eq] at bottom ⊢
          unfold atmPageSize at bottom ⊢
          omega
        have below : ∀ other ≤ start, FreeAt pages n other → other ≤ start - atmPageSize := by
          intro other le at_
          have differ : other ≠ start := fun same => notHere (same ▸ at_)
          have aligned'' : other % 0x1000 = 0 := at_.1
          unfold atmPageSize
          omega
        rcases ih smaller.1 smaller.2.1 smaller.2.2 with ⟨none_, nowhere⟩ | ⟨found, le, some_, at_, highest⟩
        · exact .inl ⟨none_, fun other le at_ => nowhere other (below other le at_) at_⟩
        · exact .inr ⟨found, by omega, some_, at_, fun other le at_ => highest other (below other le at_) at_⟩

/-! ### `mmap` -/

/-- Arguments of `mmap` that ask for an anonymous private mapping anywhere. -/
structure Anonymous (addr prot flags : Nat) (fd : Int) (off : Nat) : Prop where
  addr : addr = 0
  fd : fd = -1
  off : off = 0
  isPrivate : flags.testBit 1 = true
  anonymous : flags.testBit 5 = true
  notFixed : flags.testBit 4 = false
  prot : prot / 8 = 0 ∧ prot ≠ 0

theorem pageMask_round (small : len + atmPageSize - 1 < 2 ^ 52) :
    pageMask (len + atmPageSize - 1) = pagesOf len * atmPageSize := by
  unfold pageMask pagesOf
  rw [Nat.mod_eq_of_lt small]

theorem le_pagesOf (len : Nat) : len ≤ pagesOf len * atmPageSize ∧ pagesOf len * atmPageSize < len + atmPageSize := by
  unfold pagesOf atmPageSize
  omega

/-- The places of free spans are those where the search looks. -/
theorem FreeSpan.freeAt (free : FreeSpan pages len start) :
    FreeAt pages (pagesOf len) start ∧ start ≤ atmUserStackTop - pagesOf len * atmPageSize := by
  have high := free.high
  exact ⟨⟨free.aligned, free.low, free.free⟩, by omega⟩

/-- Undoing the pages that were mapped. -/
theorem rollback (shows_ : Shows s pages') (aligned : va % atmPageSize = 0)
    {writable noExec : Bool} (filled : Filled writable noExec va n pages pages')
    (free : ∀ k < n, pages (va + k * atmPageSize) = none) :
    Shows (forPages (fun s va => (pagingReleaseUserPage s va).1) n va s) pages := by
  obtain ⟨after, shown, released, others⟩ := forPages_spec (n := n) (g := fun _ => none)
    (f := fun s va => (pagingReleaseUserPage s va).1) (fun shows_ _ => release_step shows_) shows_ aligned
  have same : after = pages := by
    funext a
    by_cases inside : ∃ k < n, a = va + k * atmPageSize
    · obtain ⟨k, less, rfl⟩ := inside
      rw [released k less, free k less]
    · have outside : ∀ k < n, a ≠ va + k * atmPageSize := fun k less same => inside ⟨k, less, same⟩
      rw [others a outside, filled.others a outside]
  exact same ▸ shown

/-- The row of pages of a free span. -/
theorem row_window {found : Nat} (low : atmUserAnonBase ≤ found)
    (high : found + n * atmPageSize ≤ atmUserStackTop) {k : Nat} (less : k < n) :
    userWindow (found + k * atmPageSize) = true := by
  rw [anonBase_eq] at low
  rw [stackTop_eq] at high
  rw [window_iff]
  unfold atmPageSize at *
  omega

/-- Where the search begins. -/
theorem highest_start (fits : pagesOf len * atmPageSize ≤ 0x6fff000) :
    pageMask (atmUserStackTop - pagesOf len * atmPageSize) = atmUserStackTop - pagesOf len * atmPageSize ∧
    (atmUserStackTop - pagesOf len * atmPageSize) % atmPageSize = 0 ∧
    atmUserAnonBase ≤ atmUserStackTop - pagesOf len * atmPageSize := by
  rw [stackTop_eq, anonBase_eq]
  unfold pageMask atmPageSize at *
  omega

/-- The search and the loop of `mmap`: no page is new, or those of the highest free span. -/
theorem linuxMmapSpan_cases {prot : Nat} (shows_ : Shows m.tables pages) (some_ : 0 < len)
    (fits : pagesOf len * atmPageSize ≤ 0x6fff000) :
    (∃ m', linuxMmapSpan heap m (pagesOf len * atmPageSize) prot
        (pageMask (atmUserStackTop - pagesOf len * atmPageSize)) = (m', .error enomem) ∧
      Shows m'.tables pages ∧ ((∀ start, ¬FreeSpan pages len start) ∨ RanOut heap m m')) ∨
    ∃ start m' pages', linuxMmapSpan heap m (pagesOf len * atmPageSize) prot
        (pageMask (atmUserStackTop - pagesOf len * atmPageSize)) = (m', .ok start) ∧
      FreeSpan pages len start ∧ (∀ other, FreeSpan pages len other → other ≤ start) ∧
      Shows m'.tables pages' ∧
      Filled (linuxPteFlags prot).1 (linuxPteFlags prot).2 start (pagesOf len) pages pages' ∧
      ¬RanOut heap m m' ∧
      overPages (mapPage heap true false (linuxPteFlags prot).1 (linuxPteFlags prot).2) (pagesOf len) start m =
        (m', none) := by
  obtain ⟨first, aligned, low⟩ := highest_start fits
  have places : ∀ other, FreeSpan pages len other → other ≤ atmUserStackTop - pagesOf len * atmPageSize :=
    fun other free => free.freeAt.2
  have high : atmUserStackTop - pagesOf len * atmPageSize + pagesOf len * atmPageSize ≤ atmUserStackTop := by
    rw [stackTop_eq]
    omega
  rw [first]
  generalize atmUserStackTop - pagesOf len * atmPageSize = start at aligned low places high
  have enough : (start - atmUserAnonBase) / atmPageSize < start / atmPageSize := by
    rw [anonBase_eq] at low ⊢
    unfold atmPageSize
    omega
  unfold linuxMmapSpan
  rcases linuxFindFree_spec (n := pagesOf len) shows_ rfl aligned low enough with
    ⟨eq, nowhere⟩ | ⟨found, le, eq, at_, highest⟩
  · rw [eq]
    exact .inl ⟨m, rfl, shows_, .inl fun other free => nowhere other (places other free) free.freeAt.1⟩
  · rw [eq, Nat.mul_div_cancel _ (by decide)]
    obtain ⟨aligned', low', free⟩ := at_
    have inside : ∀ k < pagesOf len, userWindow (found + k * atmPageSize) = true :=
      fun k less => row_window low' (by omega) less
    obtain ⟨k, m', pages', shown, filled, -, rest⟩ := overPages_spec heap true false
      (linuxPteFlags prot).1 (linuxPteFlags prot).2 aligned' inside shows_ (.inr free)
    dsimp only
    rcases rest with ⟨done, rfl, answered⟩ | ⟨done, less, ranOut⟩
    · rw [done]
      exact .inr ⟨found, m', pages', rfl, ⟨some_, aligned', low', by omega, free⟩,
        fun other span => highest other (places other span) span.freeAt.1, shown, filled, answered, done⟩
    · rw [done]
      dsimp only
      rw [Nat.add_sub_cancel_left, Nat.mul_div_cancel _ (by decide)]
      exact .inl ⟨_, rfl, rollback shown aligned' filled fun j earlier => free j (by omega), .inr ranOut⟩

/-- The search and the loop of `mmap`, with the memory. -/
theorem linuxMmapSpan_spec {prot : Nat} (shows_ : Shows m.tables pages) (some_ : 0 < len)
    (fits : pagesOf len * atmPageSize ≤ 0x6fff000)
    (frames : ∀ i page, heap i = some page → pageMask page = page) :
    Maps heap m pages len (linuxPteFlags prot).1 (linuxPteFlags prot).2
      (linuxMmapSpan heap m (pagesOf len * atmPageSize) prot
        (pageMask (atmUserStackTop - pagesOf len * atmPageSize))) := by
  rcases linuxMmapSpan_cases shows_ some_ fits with
    ⟨m', eq, shown, why⟩ | ⟨start, m', pages', eq, free, highest, shown, filled, answered, done⟩
  · rw [eq]
    exact .failed shown why
  · have inside : ∀ k < pagesOf len, userWindow (start + k * atmPageSize) = true :=
      fun k less => row_window free.low free.high less
    obtain ⟨pages₂, shown₂, zeros⟩ := overPages_blank free.aligned inside shows_ frames done
    obtain rfl := shown.unique shown₂
    rw [eq]
    exact .mapped free highest shown filled zeros answered

/-- **`mmap`.** -/
theorem linuxMmapAnon_spec {prot flags off : Nat} {fd : Int} (shows_ : Shows m.tables pages)
    (valid : Anonymous addr prot flags fd off)
    (frames : ∀ i page, heap i = some page → pageMask page = page) :
    Maps heap m pages len (linuxPteFlags prot).1 (linuxPteFlags prot).2
      (linuxMmapAnon heap m addr len prot flags fd off) := by
  have window : atmUserStackTop - atmUserAnonBase = 0x6fff000 := by rw [stackTop_eq, anonBase_eq]
  obtain ⟨round, near⟩ := le_pagesOf len
  have tooLong : atmUserStackTop - atmUserAnonBase < pagesOf len * atmPageSize →
      ∀ start, ¬FreeSpan pages len start := by
    intro long start free
    have low := free.low
    have high := free.high
    omega
  unfold linuxMmapAnon
  rw [if_neg (by simp [shows_.valid, valid.addr, valid.fd, valid.off, valid.isPrivate, valid.anonymous,
    valid.notFixed, valid.prot.1, valid.prot.2])]
  split
  · rename_i long
    refine .failed shows_ (.inl (tooLong ?_))
    rw [window] at long ⊢
    have limit : 2 ^ 64 - 1 - (atmPageSize - 1) = 0xfffffffffffff000 := rfl
    omega
  · rename_i short
    rw [not_or, window] at short
    have mask : pageMask (len + atmPageSize - 1) = pagesOf len * atmPageSize := by
      refine pageMask_round ?_
      unfold atmPageSize
      omega
    rw [mask]
    split
    · rename_i refused
      refine .failed shows_ (.inl ?_)
      rcases refused with zero | long
      · intro start free
        have := free.some_
        omega
      · exact tooLong long
    · rename_i fits
      rw [not_or, Nat.not_lt] at fits
      refine linuxMmapSpan_spec shows_ ?_ (window ▸ fits.2) frames
      by_contra none_
      obtain rfl : len = 0 := by omega
      exact fits.1 rfl

/-- No page below `ATM_USER_ANON_BASE` changes. -/
def BelowKept (pages pages' : PageMap) : Prop := ∀ va < atmUserAnonBase, pages' va = pages va

theorem linuxMmapAnon_below (shows_ : Shows m.tables pages) (addr len prot flags : Nat) (fd : Int) (off : Nat) :
    ∃ pages', Shows (linuxMmapAnon heap m addr len prot flags fd off).1.tables pages' ∧
      BelowKept pages pages' := by
  have window : atmUserStackTop - atmUserAnonBase = 0x6fff000 := by rw [stackTop_eq, anonBase_eq]
  unfold linuxMmapAnon
  split
  · exact ⟨pages, shows_, fun _ _ => rfl⟩
  · split
    · exact ⟨pages, shows_, fun _ _ => rfl⟩
    · rename_i short
      split
      · exact ⟨pages, shows_, fun _ _ => rfl⟩
      · rename_i fits
        rw [not_or, window] at short
        have mask : pageMask (len + atmPageSize - 1) = pagesOf len * atmPageSize := by
          refine pageMask_round ?_
          unfold atmPageSize
          omega
        rw [mask, not_or, Nat.not_lt, window] at fits
        rw [mask]
        have some_ : 0 < len := by
          by_contra none_
          obtain rfl : len = 0 := by omega
          exact fits.1 rfl
        rcases linuxMmapSpan_cases shows_ some_ fits.2 with
          ⟨m', eq, shown, -⟩ | ⟨start, m', pages', eq, free, -, shown, filled, -⟩
        · rw [eq]
          exact ⟨pages, shown, fun _ _ => rfl⟩
        · rw [eq]
          refine ⟨pages', shown, fun va below => filled.others va fun k less same => ?_⟩
          have low := free.low
          omega

/-! ### `munmap` and `mprotect` -/

/-- What a span is when it is accepted. -/
theorem linuxPageSpan_some {end_ : Nat} (addr_lt : addr < 2 ^ 64) (found : linuxPageSpan addr len = some end_) :
    end_ = addr + pageMask (len + atmPageSize - 1) ∧ 0 < pageMask (len + atmPageSize - 1) ∧
      addr % atmPageSize = 0 ∧ atmUserAnonBase ≤ addr ∧ end_ ≤ atmUserStackTop := by
  unfold linuxPageSpan at found
  split at found
  · cases found
  · rename_i proper
    dsimp only at found
    split at found
    · cases found
    · rename_i inside
      obtain rfl := Option.some.inj found
      have small : pageMask (len + atmPageSize - 1) < 2 ^ 52 := by
        unfold pageMask atmPageSize
        omega
      generalize pageMask (len + atmPageSize - 1) = span at *
      have top := stackTop_eq
      omega

/-- The pages of an accepted span, as `linux_page_span` counts them. -/
def spanPages (len : Nat) : Nat := pageMask (len + atmPageSize - 1) / atmPageSize

theorem spanPages_mul (len : Nat) : spanPages len * atmPageSize = pageMask (len + atmPageSize - 1) :=
  Nat.div_mul_cancel (Nat.dvd_of_mod_eq_zero (pageMask_mod _))

/-- The span is refused, or one of its pages is not mapped. -/
def Refuses (pages : PageMap) (addr len : Nat) : Prop :=
  linuxPageSpan addr len = none ∨ ∃ k < spanPages len, pages (addr + k * atmPageSize) = none

/-- No page is as far away as the last of 2^40. -/
theorem far_unmapped (shows_ : Shows s pages) : pages (addr + (2 ^ 40 - 1) * atmPageSize) = none := by
  by_contra some_
  have inside := (shows_.outside _ some_).1
  rw [window_iff] at inside
  unfold atmPageSize at inside
  omega

/-- **Spans.** A change of the pages that `linux_page_span` counts is one of the whole span
unless the length is so large that its upper bits are lost. -/
theorem allOrNone_iff {f : Page → Option Page} (shows_ : Shows s pages)
    (mapped : ∀ k < spanPages len, ∃ x, pages (addr + k * atmPageSize) = some x)
    (changed : ∀ k < spanPages len, pages' (addr + k * atmPageSize) = (pages (addr + k * atmPageSize)).bind f)
    (others : ∀ a, (∀ k < spanPages len, a ≠ addr + k * atmPageSize) → pages' a = pages a) :
    AllOrNone f pages pages' addr len ↔ len + atmPageSize - 1 < 2 ^ 52 ∨ pages' = pages := by
  constructor
  · rintro (same | ⟨whole, -⟩)
    · exact .inr same
    · refine .inl ?_
      by_contra large
      have many : 2 ^ 40 - 1 < pagesOf len := by
        unfold pagesOf atmPageSize at *
        omega
      obtain ⟨x, there, -⟩ := whole _ many
      rw [far_unmapped shows_] at there
      cases there
  · rintro (small | same)
    · have count : spanPages len = pagesOf len := by
        unfold spanPages
        rw [pageMask_round small, Nat.mul_div_cancel _ (by decide)]
      rw [count] at mapped changed others
      refine .inr ⟨fun k less => ?_, others⟩
      obtain ⟨x, there⟩ := mapped k less
      refine ⟨x, there, ?_⟩
      rw [changed k less, there]
      rfl
    · exact .inl same

theorem allMapped_iff (shows_ : Shows s pages) (aligned : addr % atmPageSize = 0) :
    allPages (fun va => (pagingUserTranslate s va).isSome) n addr = true ↔
      ∀ k < n, ∃ x, pages (addr + k * atmPageSize) = some x := by
  rw [allPages_iff]
  refine forall_congr' fun k => forall_congr' fun less => ?_
  rw [translate_page shows_ (row_aligned aligned k), Option.ne_none_iff_exists']

/-- The number of pages of the two loops. -/
theorem span_count {end_ : Nat} (addr_lt : addr < 2 ^ 64) (found : linuxPageSpan addr len = some end_) :
    (end_ - addr) / atmPageSize = spanPages len := by
  obtain ⟨rfl, -⟩ := linuxPageSpan_some addr_lt found
  rw [Nat.add_sub_cancel_left]
  rfl

/-- **`munmap`.** -/
theorem linuxMunmapAnon_spec (shows_ : Shows s pages) (addr_lt : addr < 2 ^ 64) :
    (∃ pages', Shows (linuxMunmapAnon s addr len).1 pages' ∧
      AllOrNone (fun _ => none) pages pages' addr len) ↔
    len + atmPageSize - 1 < 2 ^ 52 ∨ Refuses pages addr len := by
  unfold linuxMunmapAnon
  rw [if_neg (by simp [shows_.valid])]
  cases found : linuxPageSpan addr len with
  | none => exact iff_of_true ⟨pages, shows_, .inl rfl⟩ (.inr (.inl found))
  | some end_ =>
    obtain ⟨-, positive, aligned, -⟩ := linuxPageSpan_some addr_lt found
    have all := allMapped_iff (n := spanPages len) shows_ aligned
    dsimp only
    rw [span_count addr_lt found]
    split
    · rename_i missing
      rw [Bool.not_eq_true', ← Bool.not_eq_true, all] at missing
      push Not at missing
      obtain ⟨k, less, unmapped⟩ := missing
      refine iff_of_true ⟨pages, shows_, .inl rfl⟩ (.inr (.inr ⟨k, less, ?_⟩))
      exact Option.eq_none_iff_forall_ne_some.mpr unmapped
    · rename_i mapped
      rw [Bool.not_eq_true', Bool.not_eq_false, all] at mapped
      obtain ⟨pages', shown, changed, others⟩ := forPages_spec (n := spanPages len) (g := fun _ => none)
        (f := fun s va => (pagingReleaseUserPage s va).1) (fun shows_ _ => release_step shows_) shows_ aligned
      have whole := allOrNone_iff (f := fun _ => none) shows_ mapped (fun k less => by
        rw [changed k less, Option.bind_fun_none]) others
      have some_ : 0 < spanPages len := by
        by_contra zero
        have := spanPages_mul len
        rw [show spanPages len = 0 by omega, Nat.zero_mul] at this
        omega
      constructor
      · rintro ⟨pages₂, shown₂, holds⟩
        obtain rfl := shown.unique shown₂
        rcases whole.mp holds with small | same
        · exact .inl small
        · obtain ⟨x, there⟩ := mapped 0 some_
          have gone := changed 0 some_
          rw [same, there] at gone
          cases gone
      · rintro (small | refused)
        · exact ⟨pages', shown, whole.mpr (.inl small)⟩
        · rcases refused with none_ | ⟨k, less, unmapped⟩
          · cases found.symm.trans none_
          · obtain ⟨x, there⟩ := mapped k less
            cases there.symm.trans unmapped

/-- The pages of the span have the rights that are asked for already. -/
def HasRights (pages : PageMap) (addr len : Nat) (rights : Bool × Bool) : Prop :=
  ∀ k < spanPages len, ∃ x, pages (addr + k * atmPageSize) = some x ∧
    x.writable = rights.1 ∧ x.noExec = rights.2

/-- **`mprotect`.** -/
theorem linuxMprotectAnon_spec {prot : Nat} (shows_ : Shows s pages) (addr_lt : addr < 2 ^ 64) :
    (∃ pages', Shows (linuxMprotectAnon s addr len prot).1 pages' ∧
      AllOrNone (fun x => some { x with writable := (linuxPteFlags prot).1, noExec := (linuxPteFlags prot).2 })
        pages pages' addr len) ↔
    len + atmPageSize - 1 < 2 ^ 52 ∨ (prot = 0 ∨ prot / 8 ≠ 0) ∨ Refuses pages addr len ∨
      HasRights pages addr len (linuxPteFlags prot) := by
  by_cases wrong : prot = 0 ∨ prot / 8 ≠ 0
  · unfold linuxMprotectAnon
    rw [if_pos (.inr wrong)]
    exact iff_of_true ⟨pages, shows_, .inl rfl⟩ (.inr (.inl wrong))
  rw [or_iff_right wrong]
  unfold linuxMprotectAnon
  rw [if_neg (not_or.mpr ⟨by simp [shows_.valid], wrong⟩)]
  generalize linuxPteFlags prot = rights
  obtain ⟨writable, noExec⟩ := rights
  cases found : linuxPageSpan addr len with
  | none => exact iff_of_true ⟨pages, shows_, .inl rfl⟩ (.inr (.inl (.inl found)))
  | some end_ =>
    obtain ⟨-, positive, aligned, -⟩ := linuxPageSpan_some addr_lt found
    have all := allMapped_iff (n := spanPages len) shows_ aligned
    dsimp only
    rw [span_count addr_lt found]
    split
    · rename_i missing
      rw [Bool.not_eq_true', ← Bool.not_eq_true, all] at missing
      push Not at missing
      obtain ⟨k, less, unmapped⟩ := missing
      refine iff_of_true ⟨pages, shows_, .inl rfl⟩ (.inr (.inl (.inr ⟨k, less, ?_⟩)))
      exact Option.eq_none_iff_forall_ne_some.mpr unmapped
    · rename_i mapped
      rw [Bool.not_eq_true', Bool.not_eq_false, all] at mapped
      obtain ⟨pages', shown, changed, others⟩ := forPages_spec (n := spanPages len)
        (g := fun x => x.map fun x => { x with writable, noExec })
        (f := fun s va => (pagingProtectUserPage s va writable noExec).1)
        (fun shows_ _ => protect_step writable noExec shows_) shows_ aligned
      have whole := allOrNone_iff (f := fun x => some { x with writable, noExec }) shows_ mapped
        (fun k less => by
          rw [changed k less, Option.map_eq_bind]
          rfl) others
      constructor
      · rintro ⟨pages₂, shown₂, holds⟩
        obtain rfl := shown.unique shown₂
        refine (whole.mp holds).imp_right fun same => .inr fun k less => ?_
        obtain ⟨x, there⟩ := mapped k less
        have set := changed k less
        rw [same, there] at set
        have same : x = { x with writable, noExec } := Option.some.inj set
        exact ⟨x, there, congrArg Page.writable same, congrArg Page.noExec same⟩
      · rintro (small | (none_ | ⟨k, less, unmapped⟩) | had)
        · exact ⟨pages', shown, whole.mpr (.inl small)⟩
        · cases found.symm.trans none_
        · obtain ⟨x, there⟩ := mapped k less
          cases there.symm.trans unmapped
        · refine ⟨pages', shown, whole.mpr (.inr ?_)⟩
          funext a
          by_cases inside : ∃ k < spanPages len, a = addr + k * atmPageSize
          · obtain ⟨k, less, rfl⟩ := inside
            obtain ⟨x, there, writes, executes⟩ := had k less
            obtain ⟨frame, _, _⟩ := x
            obtain rfl : _ = writable := writes
            obtain rfl : _ = noExec := executes
            rw [changed k less, there]
            rfl
          · exact others a fun k less same => inside ⟨k, less, same⟩

/-- A loop over an accepted span stays above `ATM_USER_ANON_BASE`. -/
theorem forPages_below {f : UserSpace → Nat → UserSpace} {g : Option Page → Option Page} {end_ : Nat}
    (step : ∀ {s pages va}, Shows s pages → va % atmPageSize = 0 →
      Shows (f s va) (Function.update pages va (g (pages va))))
    (shows_ : Shows s pages) (addr_lt : addr < 2 ^ 64) (found : linuxPageSpan addr len = some end_) :
    ∃ pages', Shows (forPages f ((end_ - addr) / atmPageSize) addr s) pages' ∧ BelowKept pages pages' := by
  obtain ⟨-, -, aligned, low, -⟩ := linuxPageSpan_some addr_lt found
  obtain ⟨pages', shown, -, others⟩ := forPages_spec (n := (end_ - addr) / atmPageSize) step shows_ aligned
  refine ⟨pages', shown, fun va below => others va fun k less same => ?_⟩
  omega

theorem linuxMunmapAnon_below (shows_ : Shows s pages) (addr_lt : addr < 2 ^ 64) :
    ∃ pages', Shows (linuxMunmapAnon s addr len).1 pages' ∧ BelowKept pages pages' := by
  unfold linuxMunmapAnon
  split
  · exact ⟨pages, shows_, fun _ _ => rfl⟩
  · split
    · exact ⟨pages, shows_, fun _ _ => rfl⟩
    · rename_i end_ found
      dsimp only
      split
      · exact ⟨pages, shows_, fun _ _ => rfl⟩
      · exact forPages_below (g := fun _ => none) (fun shows_ _ => release_step shows_) shows_ addr_lt found

theorem linuxMprotectAnon_below {prot : Nat} (shows_ : Shows s pages) (addr_lt : addr < 2 ^ 64) :
    ∃ pages', Shows (linuxMprotectAnon s addr len prot).1 pages' ∧ BelowKept pages pages' := by
  unfold linuxMprotectAnon
  split
  · exact ⟨pages, shows_, fun _ _ => rfl⟩
  · split
    · exact ⟨pages, shows_, fun _ _ => rfl⟩
    · rename_i end_ found
      dsimp only
      split
      · exact ⟨pages, shows_, fun _ _ => rfl⟩
      · exact forPages_below (fun shows_ _ => protect_step _ _ shows_) shows_ addr_lt found

/-! ### The three calls -/

/-- **Anonymous mappings.** `mmap` maps the highest free span with zeros, or fails without
an effect because there is none or the heap has no memory. `munmap` and `mprotect` change the
whole span or nothing exactly if the rounded length is below 2^52, or the call is refused, or
(`mprotect`) the pages have the rights already. -/
theorem anon_spans (heap : Nat → Option Nat) (m : Space) (pages : PageMap) (addr len prot flags off : Nat)
    (fd : Int) (shows_ : Shows m.tables pages)
    (frames : ∀ i page, heap i = some page → pageMask page = page) (addr_lt : addr < 2 ^ 64) :
    (Anonymous addr prot flags fd off → Maps heap m pages len (linuxPteFlags prot).1 (linuxPteFlags prot).2
      (linuxMmapAnon heap m addr len prot flags fd off)) ∧
    ((∃ pages', Shows (linuxMunmapAnon m.tables addr len).1 pages' ∧
      AllOrNone (fun _ => none) pages pages' addr len) ↔
      len + atmPageSize - 1 < 2 ^ 52 ∨ Refuses pages addr len) ∧
    ((∃ pages', Shows (linuxMprotectAnon m.tables addr len prot).1 pages' ∧
      AllOrNone (fun x => some { x with writable := (linuxPteFlags prot).1, noExec := (linuxPteFlags prot).2 })
        pages pages' addr len) ↔
      len + atmPageSize - 1 < 2 ^ 52 ∨ (prot = 0 ∨ prot / 8 ≠ 0) ∨ Refuses pages addr len ∨
        HasRights pages addr len (linuxPteFlags prot)) :=
  ⟨fun valid => linuxMmapAnon_spec shows_ valid frames, linuxMunmapAnon_spec shows_ addr_lt,
    linuxMprotectAnon_spec shows_ addr_lt⟩

/-- Two pages are mapped in a new space; nothing is there to be unmapped or protected. -/
theorem anon_spans_new :
    Maps (pagesFrom 0x800000 16) newSpace (fun _ => none) 0x2000 true true
        (linuxMmapAnon (pagesFrom 0x800000 16) newSpace 0 0x2000 3 0x22 (-1) 0) ∧
      (∃ pages', Shows (linuxMunmapAnon newSpace.tables 0 0x2000).1 pages' ∧
        AllOrNone (fun _ => none) (fun _ => none) pages' 0 0x2000) ∧
      ∃ pages', Shows (linuxMprotectAnon newSpace.tables 0 0x2000 3).1 pages' ∧
        AllOrNone (fun x => some { x with writable := true, noExec := true }) (fun _ => none) pages' 0 0x2000 := by
  have spans := anon_spans (pagesFrom 0x800000 16) newSpace (fun _ => none) 0 0x2000 3 0x22 0 (-1)
    newSpace_shows (pagesFrom_frames (by decide) (by decide)) (by decide)
  have anonymous : Anonymous 0 3 0x22 (-1) 0 := ⟨rfl, rfl, rfl, rfl, rfl, rfl, rfl, by decide⟩
  exact ⟨spans.1 anonymous, spans.2.1.mpr (.inl (by decide)), spans.2.2.mpr (.inl (by decide))⟩

/-- The space after `mmap` of one page. -/
def oneMapping : UserSpace := (linuxMmapAnon (pagesFrom 0x800000 16) newSpace 0 0x1000 3 0x22 (-1) 0).1.tables

/-- `munmap` of more than 2^52 bytes succeeds, and unmaps the first page of them. -/
theorem munmap_drops_bits :
    (linuxMunmapAnon oneMapping 0x47ffe000 (2 ^ 52 + 0x1000)).2 = .ok 0 ∧
    ∃ pages, Shows oneMapping pages ∧
      ¬∃ pages', Shows (linuxMunmapAnon oneMapping 0x47ffe000 (2 ^ 52 + 0x1000)).1 pages' ∧
        AllOrNone (fun _ => none) pages pages' 0x47ffe000 (2 ^ 52 + 0x1000) := by
  have done : (linuxMunmapAnon oneMapping 0x47ffe000 (2 ^ 52 + 0x1000)).2 = .ok 0 := by decide
  have before : (pagingUserTranslate oneMapping 0x47ffe000).isSome = true := by decide
  have after : (pagingUserTranslate (linuxMunmapAnon oneMapping 0x47ffe000 (2 ^ 52 + 0x1000)).1
      0x47ffe000).isSome = false := by
    decide
  have maps : Maps (pagesFrom 0x800000 16) newSpace (fun _ => none) 0x1000 true true
      (linuxMmapAnon (pagesFrom 0x800000 16) newSpace 0 0x1000 3 0x22 (-1) 0) :=
    @linuxMmapAnon_spec _ _ _ 0x1000 0 3 0x22 0 (-1) newSpace_shows ⟨rfl, rfl, rfl, rfl, rfl, rfl, by decide⟩
      (@pagesFrom_frames 0x800000 16 (by decide) (by decide))
  have shows_ : ∃ pages, Shows oneMapping pages := by
    unfold oneMapping
    generalize linuxMmapAnon (pagesFrom 0x800000 16) newSpace 0 0x1000 3 0x22 (-1) 0 = r at maps
    cases maps with
    | mapped free highest shown => exact ⟨_, shown⟩
    | failed shown => exact ⟨_, shown⟩
  obtain ⟨pages, shown⟩ := shows_
  refine ⟨done, pages, shown, ?_⟩
  rintro ⟨pages', shown', same | ⟨whole, -⟩⟩
  · rw [translate_page shown rfl, ← same] at before
    rw [← Bool.not_eq_true, translate_page shown' rfl] at after
    exact after before
  · obtain ⟨x, there, -⟩ := whole (2 ^ 40 - 1) (by decide)
    rw [far_unmapped shown] at there
    cases there

end AtmKoala.Linux
