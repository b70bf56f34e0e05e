import AtmKoala.Kmalloc.Sizes
import AtmKoala.Paging.Store

/-!
The frames of new pages.

* `FreshPages` says what the loops over pages rely on: the heap gives whole pages, and no
  page twice.
* `overPages_frames`: then no two pages of a space have the same frame.
* `freshPages_kmalloc`: the requests of these loops to the allocator of the kernel, one after
  the other, are answered so.
-/

namespace AtmKoala.Paging

open Lib
open Function (update_of_ne update_self)

/-- The heap gives whole pages, each of them once. -/
structure FreshPages (heap : Nat → Option Nat) : Prop where
  whole : ∀ i page, heap i = some page → pageMask page = page
  once : ∀ i j page, heap i = some page → heap j = some page → i = j

/-- The frames of a space come from requests to the heap, and no two pages have the same. -/
structure FramesOf (heap : Nat → Option Nat) (asked : Nat) (pages : PageMap) : Prop where
  given : ∀ va x, pages va = some x → ∃ i < asked, heap i = some x.frame
  unrelated : Unrelated pages

variable {heap : Nat → Option Nat} {m m' : Space} {pages pages' : PageMap} {va n asked more : Nat}
  {cleared skip writable noExec : Bool}

theorem FramesOf.nothing (heap : Nat → Option Nat) (asked : Nat) : FramesOf heap asked fun _ => none :=
  ⟨nofun, nofun⟩

theorem FramesOf.mono (frames : FramesOf heap asked pages) (le : asked ≤ more) : FramesOf heap more pages := by
  refine ⟨fun va x there => ?_, frames.unrelated⟩
  obtain ⟨i, less, given⟩ := frames.given va x there
  exact ⟨i, less.trans_le le, given⟩

/-- A new page gets a frame of its own. -/
theorem FramesOf.placed (frames : FramesOf heap m.asked pages) (fresh : FreshPages heap) {rc : Int}
    (placed : Placed heap cleared skip writable noExec va m pages (m', rc) pages') :
    FramesOf heap m'.asked pages' := by
  cases placed with
  | kept => exact frames
  | refused free asked => exact frames.mono asked
  | @mapped _ page free granted mem asked answered tables =>
    have whole := fresh.whole _ _ granted
    have requests : m.asked + 1 ≤ m'.asked := by
      rw [asked]
      unfold pageRequests
      split <;> omega
    have new : ∀ a x, pages a = some x → x.frame ≠ page := by
      intro a x there same
      obtain ⟨i, less, given⟩ := frames.given a x there
      have := fresh.once _ _ _ given (same ▸ granted)
      omega
    rw [whole]
    refine ⟨fun a x there => ?_, fun a b x y there there' same => ?_⟩
    · by_cases here : a = va
      · subst here
        rw [update_self] at there
        obtain rfl := Option.some.inj there
        exact ⟨m.asked, requests, granted⟩
      · rw [update_of_ne here] at there
        obtain ⟨i, less, given⟩ := frames.given a x there
        exact ⟨i, by omega, given⟩
    · by_cases here : a = va
      · by_cases here' : b = va
        · rw [here, here']
        · subst here
          rw [update_self] at there
          rw [update_of_ne here'] at there'
          obtain rfl := Option.some.inj there
          exact absurd same.symm (new b y there')
      · rw [update_of_ne here] at there
        by_cases here' : b = va
        · subst here'
          rw [update_self] at there'
          obtain rfl := Option.some.inj there'
          exact absurd same (new a x there)
        · rw [update_of_ne here'] at there'
          exact frames.unrelated a b x y there there' same

/-- **Frames.** Loops over pages give every page a frame of its own. -/
theorem overPages_frames (cleared skip writable noExec : Bool) (fresh : FreshPages heap) (aligned : va % atmPageSize = 0)
    (inside : ∀ k < n, userWindow (va + k * atmPageSize) = true) (shows_ : Shows m.tables pages)
    (frames : FramesOf heap m.asked pages) :
    ∃ pages', Shows (overPages (mapPage heap cleared skip writable noExec) n va m).1.tables pages' ∧
      FramesOf heap (overPages (mapPage heap cleared skip writable noExec) n va m).1.asked pages' := by
  obtain ⟨k, m₁, pages', frames', rest⟩ := overPages_rule heap cleared skip writable noExec
    (fun _ m' pages' => FramesOf heap m'.asked pages') aligned inside shows_ frames
    fun k less m₁ pages₁ m₂ pages₂ frames placed => frames.placed fresh placed
  rcases rest with ⟨eq, -, shown⟩ | ⟨m₂, eq, -, shown, placed⟩
  · rw [eq]
    exact ⟨pages', shown, frames'⟩
  · rw [eq]
    exact ⟨pages', shown, frames'.placed fresh placed⟩

/-! ### The allocator -/

open Kmalloc in
/-- The heap after `n` requests of a page. -/
def heapAfter (h : Heap) : Nat → Heap
  | 0 => h
  | n + 1 => (kmallocAligned (heapAfter h n) atmPageSize atmPageSize).1

/-- What `kmalloc_aligned` answers to the requests of a page. -/
def pageAnswers (h : Kmalloc.Heap) (n : Nat) : Option Nat :=
  match (Kmalloc.kmallocAligned (heapAfter h n) atmPageSize atmPageSize).2 with
  | 0 => none
  | page + 1 => some (page + 1)

section

open Kmalloc Aligned

variable {h : Heap} {live : List Lease} {bs : List Chunk} {x y : Lease}

theorem leased_forget (leased : Leased ⟨h, live⟩ bs) : Leased ⟨h, []⟩ bs :=
  ⟨leased.nonempty, leased.chain, leased.fits, nofun, .nil⟩

/-- Two live pointers that are the same come from the same block. -/
theorem raw_eq_of_ptr_eq (leased : Leased ⟨h, live⟩ bs) (mem_ : x ∈ live) (mem' : y ∈ live) (same : x.ptr = y.ptr) :
    x.raw = y.raw := by
  obtain ⟨a, b, taken, held⟩ := leased.held x mem_
  obtain ⟨a', b', taken', held'⟩ := leased.held y mem'
  have raw := held.raw
  have low := held.low
  have high := held.high
  have raw' := held'.raw
  have low' := held'.low
  have high' := held'.high
  rcases places_apart (mem_used.mp taken).1 (mem_used.mp taken').1 with eq | before | behind
  · obtain ⟨rfl, -⟩ := Prod.mk.inj eq
    omega
  · omega
  · omega

/-- The heap after some requests, with the pages that were given. -/
theorem leased_after (leased : Leased ⟨h, live⟩ bs) (n : Nat) :
    ∃ live bs, Leased ⟨heapAfter h n, live⟩ bs ∧ (heapAfter h n).heapStart = h.heapStart ∧
      (heapAfter h n).heapTotal = h.heapTotal ∧
      ∀ i < n, ∀ page, pageAnswers h i = some page → ∃ x ∈ live, x.ptr = page := by
  induction n with
  | zero => exact ⟨live, bs, leased, rfl, rfl, fun _ less => absurd less (Nat.not_lt_zero _)⟩
  | succ n ih =>
    obtain ⟨live, bs, leased, start, total, given⟩ := ih
    obtain ⟨s, cs, ran, leased', frame⟩ := @Leased.kmallocAligned_ _ _ leased atmPageSize atmPageSize
      (by decide) (by decide)
    cases answer : kmallocAligned (heapAfter h n) atmPageSize atmPageSize with
    | mk h' ptr =>
      rw [Leased.perform_kmallocAligned answer] at ran
      obtain rfl := Option.some.inj ran
      have next : heapAfter h (n + 1) = h' := by
        rw [heapAfter, answer]
      rw [next]
      refine ⟨_, cs, leased', frame.heapStart.trans start, frame.heapTotal.trans total, fun i less page some_ => ?_⟩
      rcases Nat.lt_succ_iff_lt_or_eq.mp less with earlier | rfl
      · obtain ⟨x, mem_, same⟩ := given i earlier page some_
        refine ⟨x, ?_, same⟩
        split
        · exact mem_
        · exact List.mem_cons_of_mem _ mem_
      · unfold pageAnswers at some_
        rw [answer] at some_
        dsimp only at some_
        split at some_
        · cases some_
        · obtain rfl := Option.some.inj some_
          rw [if_neg (Nat.succ_ne_zero _)]
          exact ⟨_, List.mem_cons_self, rfl⟩

/-- What is answered is a page behind the start of the heap, and not one that is live. -/
theorem pageAnswers_some (leased : Leased ⟨h, live⟩ bs) (low : h.heapStart + h.heapTotal + 32 ≤ 2 ^ 52)
    {n page : Nat} (answer : pageAnswers h n = some page) :
    pageMask page = page ∧ ∀ i < n, pageAnswers h i ≠ some page := by
  obtain ⟨live', bs', leased', start, total, given⟩ := leased_after leased n
  obtain ⟨s, cs, ran, after, frame⟩ := @Leased.kmallocAligned_ _ _ leased' atmPageSize atmPageSize
    (by decide) (by decide)
  have granted := @kmallocAligned_granted _ atmPageSize atmPageSize _ (leased_forget leased') (by decide) (by decide)
    (by decide)
  unfold pageAnswers at answer
  cases eq : kmallocAligned (heapAfter h n) atmPageSize atmPageSize with
  | mk h' ptr =>
    rw [eq] at granted answer
    dsimp only at answer granted
    split at answer
    · cases answer
    · rename_i page'
      obtain rfl := Option.some.inj answer
      rw [Leased.perform_kmallocAligned eq] at ran
      obtain rfl := Option.some.inj ran
      rw [if_neg (Nat.succ_ne_zero _)] at after
      refine ⟨?_, fun i less earlier => ?_⟩
      · rcases granted with null | ⟨aligned, usable⟩
        · cases null
        · have high := usable.high
          rw [frame.heapStart, frame.heapTotal] at high
          dsimp only at high aligned
          unfold headerSize at high
          unfold pageMask atmPageSize at *
          omega
      · obtain ⟨x, mem_, same⟩ := given i less _ earlier
        have raw := raw_eq_of_ptr_eq after (List.mem_cons_of_mem _ mem_) List.mem_cons_self same
        have nodup := after.nodup
        rw [List.map_cons, List.nodup_cons] at nodup
        exact nodup.1 (raw ▸ List.mem_map_of_mem mem_)

/-- **The allocator** gives the loops over pages whole pages, and none of them twice. -/
theorem freshPages_kmalloc (leased : Leased ⟨h, live⟩ bs) (low : h.heapStart + h.heapTotal + 32 ≤ 2 ^ 52) :
    FreshPages (pageAnswers h) := by
  refine ⟨fun i page given => (pageAnswers_some leased low given).1, fun i j page given given' => ?_⟩
  rcases Nat.lt_trichotomy i j with less | same | less
  · exact absurd given ((pageAnswers_some leased low given').2 i less)
  · exact same
  · exact absurd given' ((pageAnswers_some leased low given).2 j less)

theorem freshPages_kmalloc_init :
    FreshPages (pageAnswers (heapInit (statics fun _ => 0) 0x400000 0x800000)) := by
  obtain ⟨n, first, end_, total⟩ := @heapInit_sound (fun _ => 0) 0x400000 0x800000 (by decide) (by decide)
    (by decide) (by decide)
  exact freshPages_kmalloc (leased_of_sound first) (by omega)

end

end AtmKoala.Paging
