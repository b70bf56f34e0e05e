import Mathlib.Data.List.Nodup
import AtmKoala.Kmalloc.Runs

/-!
Aligned blocks of the heap: `kmalloc_aligned`, and what `kfree` makes of them.

`kfree` takes the words in front of a pointer for a header when the word 32 bytes in
front of it is `HEAP_MAGIC`, and follows the word right in front of it otherwise.

* `kmallocFrom_takes`, `coalesceFrom_keeps`: which words the two loops write, however
  many rounds they make. The bodies of taken blocks are not among them.
* `Leased` is the invariant: in front of every live aligned pointer stands the pointer
  of the block that backs it.
* `frees_iff`: `kfree` of an aligned pointer frees that block and nothing else as long
  as the word that would be the magic one is not.
-/

namespace AtmKoala.Kmalloc

open Lib

def kmallocAligned (h : Heap) (size alignment : Nat) : Heap × Nat :=
  if alignment ≤ 8 then kmalloc h size
  else
    -- `sizeof(void *)` more, for the pointer that is stored in front
    let total := u64 (u64 (size + alignment) + 8)
    match kmalloc h total with
    | (h, raw) =>
      if raw = 0 then (h, 0)
      else
        let addr := align (u64 (raw + 8)) alignment
        (h.store (sub64 addr 8) raw, addr)

variable {h h' : Heap} {mem mem' : Nat → Nat} {p q a n fuel : Nat} {b c : Chunk} {bs cs : List Chunk}

/-! ### The words the loops write -/

/-- The headers and the bodies of blocks have no word in common. -/
theorem body_apart (mem_ : (a, b) ∈ places 32 p bs) {y : Nat × Chunk} (mem' : y ∈ places 32 p bs)
    {x : Nat} (low : a + 32 ≤ x) (high : x < a + 32 + b.size) : x < y.1 ∨ y.1 + 32 ≤ x := by
  obtain ⟨d, c⟩ := y
  rcases places_apart mem_ mem' with same | before | behind
  · obtain ⟨rfl, -⟩ := Prod.mk.inj same
    exact .inr low
  · exact .inl (by omega)
  · exact .inr (by omega)

/-- The bodies of the taken blocks are as they were. -/
def Quiet (mem mem' : Nat → Nat) (p : Nat) (bs : List Chunk) : Prop :=
  ∀ u ∈ used 32 p bs, ∀ x, u.1 + 32 ≤ x → x < u.1 + 32 + u.2.size → mem' x = mem x

/-- A loop with more rounds left does the same, unless it has given up. -/
theorem kmallocFrom_more (h : Heap) (n fuel p more : Nat) :
    kmallocFrom h n fuel p = (h, 0) ∨ kmallocFrom h n (fuel + more) p = kmallocFrom h n fuel p := by
  induction fuel generalizing p with
  | zero => exact .inl rfl
  | succ fuel ih =>
    rw [Nat.add_right_comm, kmallocFrom, kmallocFrom]
    split
    · exact .inr rfl
    · split
      · exact .inr rfl
      · split
        · exact .inr rfl
        · exact ih (h.next p)

/-- The loop of `kmalloc` takes one of the free blocks or gives up. -/
theorem kmallocFrom_takes (fuel : Nat) (chain : Chain h.mem p bs) (fits : Fits h p bs) :
    kmallocFrom h n fuel (if bs = [] then 0 else p) = (h, 0) ∨
    ∃ a b, (a, b) ∈ places 32 p bs ∧ b.free = true ∧ n ≤ b.size ∧
      kmallocFrom h n fuel (if bs = [] then 0 else p) = (takeBlock h a n, u64 (a + headerSize)) := by
  induction bs generalizing p fuel with
  | nil =>
    rw [if_pos rfl]
    cases fuel with
    | zero => exact .inl rfl
    | succ fuel => exact .inl rfl
  | cons b bs ih =>
    cases fuel with
    | zero => exact .inl rfl
    | succ fuel =>
      have sits := chain.1
      have next : h.next p = if bs = [] then 0 else p + 32 + b.size := sits.next
      have sizeEq : h.size p = b.size := sits.size
      rw [if_neg (List.cons_ne_nil _ _), kmallocFrom, next]
      split
      · exact .inl rfl
      · split
        · exact .inl rfl
        · split
          · rename_i taken
            have free : b.free = true := by
              refine Bool.of_not_eq_false fun notFree => taken.1 ?_
              exact sits.free_eq_zero.mpr notFree
            exact .inr ⟨p, b, List.mem_cons_self, free, sizeEq ▸ taken.2, rfl⟩
          · rcases ih fuel chain.2 fits.tail with none_ | ⟨a, c, mem_, free, le, eq⟩
            · exact .inl none_
            · exact .inr ⟨a, c, List.mem_cons_of_mem _ mem_, free, le, eq⟩

/-- Taking a block writes to the block only. -/
theorem takeBlock_outside (sits : Sits h.mem a b q) (below : a + 32 + b.size < 2 ^ 64)
    (small : b.size < 2 ^ 32) (le : n ≤ b.size) {x : Nat} (outside : x < a ∨ a + 32 + b.size ≤ x) :
    (takeBlock h a n).mem x = h.mem x := by
  by_cases split : n + 32 + 32 ≤ b.size
  · rw [mem_takeBlock_split sits.size below small split, if_neg (by omega), if_neg (by omega),
      if_neg (by omega), if_neg (by omega), if_neg (by omega), if_neg (by omega), if_neg (by omega)]
  · have whole : h.mem (a + 8) < n + 32 + 32 := by
      rw [sits.size]
      omega
    rw [mem_takeBlock_whole (by omega) whole, if_neg (by omega)]

theorem Fits.bound (fits : Fits h p bs) (mem_ : (a, b) ∈ places 32 p bs) :
    a + 32 + b.size ≤ h.heapStart + h.heapTotal + 32 ∧ b.size < 2 ^ 32 := by
  obtain ⟨low, high⟩ := bounds_of_mem mem_
  have first := fits.low
  have end_ := fits.end_
  have total := fits.total
  omega

/-- **First fit, at any fuel**: the loop of `kmalloc` gives up or takes a block as
`allocate` does, and writes to no other block. -/
theorem kmallocFrom_serves (fuel : Nat) (chain : Chain h.mem p bs) (fits : Fits h p bs) (some_ : bs ≠ [])
    (even : n % 8 = 0) :
    kmallocFrom h n fuel p = (h, 0) ∨
    ∃ a cs h', kmallocFrom h n fuel p = (h', a + 32) ∧ Allocated 32 n p bs a cs ∧
      Chain h'.mem p cs ∧ Frame h h' p ∧ Quiet h.mem h'.mem p bs := by
  have takes := kmallocFrom_takes (n := n) fuel chain fits
  have done := kmallocFrom_spec (Nat.le_add_left bs.length fuel) chain fits even
  rw [if_neg some_] at takes done
  rcases kmallocFrom_more h n fuel p bs.length with none_ | same
  · exact .inl none_
  · rw [same] at done
    cases found : allocate 32 32 n p bs with
    | none =>
      rw [found] at done
      exact .inl done
    | some r =>
      obtain ⟨a, cs⟩ := r
      rw [found] at done
      obtain ⟨h', eq, chain', frame⟩ := done
      rcases takes with none_ | ⟨d, b, mem_, free, le, took⟩
      · exact .inl none_
      · refine .inr ⟨a, cs, h', eq, allocated_of_eq found, chain', frame, fun u taken x low high => ?_⟩
        obtain rfl : h' = takeBlock h d n := (Prod.mk.inj (eq.symm.trans took)).1
        obtain ⟨q, sits⟩ := chain.sits mem_
        obtain ⟨top, small⟩ := fits.bound mem_
        have high' := fits.high
        obtain ⟨placed, notFree⟩ := mem_used.mp taken
        refine takeBlock_outside sits (by omega) small le ?_
        rcases places_apart (c := b) (d := d) (a := u.1) (b := u.2) placed mem_ with same' | before | behind
        · rw [show u.2 = b from (Prod.mk.inj same').2, free] at notFree
          cases notFree
        · exact .inl (by omega)
        · exact .inr (by omega)

/-- What `coalesce` makes of the blocks, however far it gets: they are taken as before,
and only sizes and links of headers are written. -/
structure Joined (h h' : Heap) (p : Nat) (bs cs : List Chunk) : Prop where
  chain : Chain h'.mem p cs
  frame : Frame h h' p
  nonempty : cs ≠ []
  extent : extent 32 cs = extent 32 bs
  used : used 32 p cs = used 32 p bs
  words : ∀ x, (∀ y ∈ places 32 p bs, x ≠ y.1 + 8 ∧ x ≠ y.1 + 24) → h'.mem x = h.mem x

theorem Joined.refl (chain : Chain h.mem p bs) (some_ : bs ≠ []) : Joined h h p bs bs where
  chain := chain
  frame := .refl h p
  nonempty := some_
  extent := rfl
  used := rfl
  words _ _ := rfl

/-- Two free neighbours are joined first. -/
theorem Joined.merge {h₁ h₂ : Heap} {size : Nat} (chain : Chain h.mem p (b :: c :: bs))
    (fits : Fits h p (b :: c :: bs)) (free : b.free = true) (free' : c.free = true)
    (first : h₁ = h.setSize p size)
    (sizeEq : size = u64 (h.size p + u64 (headerSize + h.size (h.next p))))
    (second : h₂ = h₁.setNext p (h₁.next (h₁.next p)))
    (rest : Joined h₂ h' p (⟨b.size + 32 + c.size, true⟩ :: bs) cs) :
    Joined h h' p (b :: c :: bs) cs := by
  obtain ⟨-, frame⟩ := merge_spec chain fits free h₁ h₂ (sizeEq ▸ first) second
  have behind : p + 32 + (b.size + 32 + c.size) = p + 32 + b.size + 32 + c.size := by omega
  refine ⟨rest.chain, frame.trans rest.frame, rest.nonempty, ?_, ?_, fun x clear => ?_⟩
  · rw [rest.extent]
    simp only [Lib.extent]
    omega
  · rw [rest.used, used_cons, used_cons, used_cons, if_pos rfl, if_pos free, if_pos free']
    dsimp only
    rw [behind]
  · have here := clear (p, b) List.mem_cons_self
    have kept : h₂.mem x = h.mem x := by
      rw [second, first, Heap.setNext, mem_store, if_neg here.2, Heap.setSize, mem_store, if_neg here.1]
    rw [← kept]
    refine rest.words x fun y mem_ => ?_
    rcases List.mem_cons.mp mem_ with rfl | later
    · exact here
    · dsimp only at later
      rw [behind] at later
      exact clear y (List.mem_cons_of_mem _ (List.mem_cons_of_mem _ later))

/-- **Joining neighbours, at any fuel.** -/
theorem coalesceFrom_keeps (fuel : Nat) (chain : Chain h.mem p (b :: bs)) (fits : Fits h p (b :: bs)) :
    ∃ cs, Joined h (coalesceFrom h fuel p) p (b :: bs) cs := by
  induction fuel generalizing h p b bs with
  | zero => exact ⟨_, .refl chain (List.cons_ne_nil _ _)⟩
  | succ fuel ih =>
    rw [coalesceFrom]
    split
    · exact ⟨_, .refl chain (List.cons_ne_nil _ _)⟩
    · rename_i notEnd
      split
      · exact ⟨_, .refl chain (List.cons_ne_nil _ _)⟩
      · cases bs with
        | nil =>
          have next : h.next p = 0 := chain.1.next
          exact absurd (.inr next) notEnd
        | cons c bs =>
          have next : h.next p = p + 32 + b.size := chain.1.next
          split
          · rename_i both
            have free : b.free = true :=
              Bool.of_not_eq_false fun taken => both.1 (chain.1.free_eq_zero.mpr taken)
            have free' : c.free = true := by
              refine Bool.of_not_eq_false fun taken => both.2 ?_
              rw [next]
              exact chain.2.1.free_eq_zero.mpr taken
            obtain ⟨chain', frame⟩ := merge_spec chain fits free _ _ rfl rfl
            obtain ⟨cs, rest⟩ := ih chain' (fits.congr frame (by
              simp only [extent]
              omega))
            exact ⟨cs, .merge chain fits free free' rfl rfl rfl rest⟩
          · rw [next]
            obtain ⟨cs, rest⟩ := ih chain.2 fits.tail
            have kept : Chain (coalesceFrom h fuel (p + 32 + b.size)).mem p (b :: cs) :=
              chain.cons rest.frame rest.chain (iff_of_false (List.cons_ne_nil _ _) rest.nonempty)
            refine ⟨b :: cs, kept, rest.frame.mono (by omega), List.cons_ne_nil _ _, ?_, ?_, ?_⟩
            · simp only [extent]
              have := rest.extent
              simp only [extent] at this
              omega
            · rw [used_cons, used_cons, rest.used]
            · exact fun x clear => rest.words x fun y mem_ => clear y (List.mem_cons_of_mem _ mem_)

theorem Joined.free (joined : Joined h h' p bs cs) (mem_ : (a, b) ∈ places 32 p bs) :
    h'.free a = h.free a := by
  unfold Heap.free
  rw [joined.words]
  intro y mem'
  rcases places_apart (c := y.2) (d := y.1) mem_ mem' with same | before | behind
  · have := (Prod.mk.inj same).1
    omega
  · omega
  · omega

/-! ### What one call frees -/

/-- There is a block with its header at `d`. -/
def Block (h : Heap) (d : Nat) : Prop := ∃ ps, Linked h h.heapStart ps ∧ d ∈ ps

/-- The block at `a`, which backs the pointer `ptr`, is marked free from `h` to `h'`. No
other block changes its status, and the taken blocks are the others that were. -/
structure Frees (h h' : Heap) (ptr a : Nat) : Prop where
  block : Block h a
  backs : a + headerSize ≤ ptr ∧ ptr < a + headerSize + h.size a
  before : h.free a = 0
  marked : h'.free a ≠ 0
  others : ∀ d, Block h d → d ≠ a → h'.free d = h.free d
  taken : ∀ d, Block h' d ∧ h'.free d = 0 ↔ Block h d ∧ h.free d = 0 ∧ d ≠ a

theorem Linked.unique {ps qs : List Nat} (linked : Linked h p ps) (linked' : Linked h p qs) : ps = qs := by
  induction linked generalizing qs with
  | nil =>
    cases linked' with
    | nil => rfl
    | cons nonzero _ => exact absurd rfl nonzero
  | cons nonzero _ ih =>
    cases linked' with
    | nil => exact absurd rfl nonzero
    | cons _ rest => rw [ih rest]

theorem block_iff (chain : Chain h.mem h.heapStart bs) (start : 0 < h.heapStart) (some_ : bs ≠ []) (d : Nat) :
    Block h d ↔ ∃ b, (d, b) ∈ places 32 h.heapStart bs := by
  have linked := chain.linked start
  rw [if_neg some_] at linked
  constructor
  · rintro ⟨ps, linked', mem_⟩
    obtain rfl := linked.unique linked'
    obtain ⟨⟨d', b⟩, placed, rfl⟩ := List.mem_map.mp mem_
    exact ⟨b, placed⟩
  · rintro ⟨b, placed⟩
    exact ⟨_, linked, List.mem_map_of_mem (f := Prod.fst) placed⟩

theorem taken_iff (chain : Chain h.mem h.heapStart bs) (start : 0 < h.heapStart) (some_ : bs ≠ []) (d : Nat) :
    Block h d ∧ h.free d = 0 ↔ ∃ b, (d, b) ∈ used 32 h.heapStart bs := by
  rw [block_iff chain start some_]
  constructor
  · rintro ⟨⟨b, placed⟩, free⟩
    obtain ⟨q, sits⟩ := chain.sits placed
    exact ⟨b, mem_used.mpr ⟨placed, sits.free_eq_zero.mp free⟩⟩
  · rintro ⟨b, taken⟩
    obtain ⟨placed, notFree⟩ := mem_used.mp taken
    obtain ⟨q, sits⟩ := chain.sits placed
    exact ⟨⟨b, placed⟩, sits.free_eq_zero.mpr notFree⟩

/-- Freeing a block moves none. -/
theorem places_release (hdr a p : Nat) (bs : List Chunk) :
    (places hdr p (release hdr a p bs)).map Prod.fst = (places hdr p bs).map Prod.fst := by
  induction bs generalizing p with
  | nil => rfl
  | cons b bs ih =>
    unfold release
    split
    · rfl
    · simp only [places, List.map_cons, ih]

theorem mem_places_release {hdr : Nat} {y : Nat × Chunk} (mem_ : y ∈ places hdr p (release hdr a p bs)) :
    ∃ c, (y.1, c) ∈ places hdr p bs := by
  have mapped := List.mem_map_of_mem (f := Prod.fst) mem_
  rw [places_release] at mapped
  obtain ⟨⟨d, c⟩, placed, same⟩ := List.mem_map.mp mapped
  obtain rfl : d = y.1 := same
  exact ⟨c, placed⟩

/-- `kfree` joins the blocks after it has freed the one whose header it found. -/
theorem kfree_joined (chain : Chain h.mem h.heapStart bs) (fits : Fits h h.heapStart bs)
    (mem_ : (a, b) ∈ used 32 h.heapStart bs) {ptr : Nat} (low : a + 32 ≤ ptr)
    (high : ptr < a + 32 + b.size) (found : headerOf h ptr = some a) :
    ∃ cs, Joined (h.setFree a 1) (kfree h ptr) h.heapStart (release 32 a h.heapStart bs) cs := by
  have placed := (mem_used.mp mem_).1
  have released := chain_release chain placed
  have length := length_release 32 a h.heapStart bs
  have flagged : Frame h (h.setFree a 1) h.heapStart := by
    refine ⟨rfl, rfl, fun y lt => ?_⟩
    have low := (bounds_of_mem placed).1
    rw [mem_setFree, if_neg (by omega)]
  have fits' := fits.congr flagged (extent_release 32 a h.heapStart bs)
  rw [kfree_found chain fits mem_ low high found]
  generalize release 32 a h.heapStart bs = cs at released length fits'
  cases cs with
  | nil =>
    have none_ := List.eq_nil_of_length_eq_zero length.symm
    rw [none_] at placed
    cases placed
  | cons c cs => exact coalesceFrom_keeps heapWalkMax released fits'

/-- **One block is freed**, the one whose header was found. -/
theorem kfree_frees (chain : Chain h.mem h.heapStart bs) (fits : Fits h h.heapStart bs)
    (mem_ : (a, b) ∈ used 32 h.heapStart bs) {ptr : Nat} (low : a + 32 ≤ ptr)
    (high : ptr < a + 32 + b.size) (found : headerOf h ptr = some a) :
    Frees h (kfree h ptr) ptr a := by
  obtain ⟨cs, joined⟩ := kfree_joined chain fits mem_ low high found
  obtain ⟨placed, notFree⟩ := mem_used.mp mem_
  obtain ⟨q, sits⟩ := chain.sits placed
  have size : h.size a = b.size := sits.size
  have some_ : bs ≠ [] := by
    rintro rfl
    cases placed
  have perm := used_release (by decide) mem_
  have start : (kfree h ptr).heapStart = h.heapStart := joined.frame.heapStart
  have chain' : Chain (kfree h ptr).mem (kfree h ptr).heapStart cs := by
    rw [start]
    exact joined.chain
  have kept : ∀ {d c}, (d, c) ∈ places 32 h.heapStart bs →
      (kfree h ptr).free d = (h.setFree a 1).free d := by
    intro d c mem'
    have mapped := List.mem_map_of_mem (f := Prod.fst) mem'
    rw [← places_release 32 a] at mapped
    obtain ⟨⟨d', c'⟩, placed', rfl⟩ := List.mem_map.mp mapped
    exact joined.free placed'
  refine ⟨(block_iff chain fits.start some_ a).mpr ⟨b, placed⟩, ?_, ?_, ?_, ?_, fun d => ?_⟩
  · rw [size]
    exact ⟨low, high⟩
  · exact sits.free_eq_zero.mpr notFree
  · rw [kept placed]
    unfold Heap.free
    rw [mem_setFree, if_pos rfl, lower_half _ _ (by decide)]
    decide
  · intro d block differ
    obtain ⟨c, placed'⟩ := (block_iff chain fits.start some_ d).mp block
    rw [kept placed']
    unfold Heap.free
    rw [mem_setFree, if_neg (by omega)]
  · rw [← and_assoc, taken_iff chain fits.start some_,
      taken_iff chain' (start ▸ fits.start) joined.nonempty, start, joined.used]
    have nodup : ∀ {c}, (a, c) ∉ used 32 h.heapStart (release 32 a h.heapStart bs) := by
      intro c left
      have whole := used_nodup (by decide : 0 < 32) h.heapStart bs
      rw [(perm.map Prod.fst).nodup_iff, List.map_cons, List.nodup_cons] at whole
      exact whole.1 (List.mem_map.mpr ⟨_, left, rfl⟩)
    constructor
    · rintro ⟨c, taken⟩
      refine ⟨⟨c, perm.mem_iff.mpr (List.mem_cons_of_mem _ taken)⟩, ?_⟩
      rintro rfl
      exact nodup taken
    · rintro ⟨⟨c, taken⟩, differ⟩
      refine ⟨c, ?_⟩
      rcases List.mem_cons.mp (perm.mem_iff.mp taken) with same | other
      · exact absurd (Prod.mk.inj same).1 differ
      · exact other

/-! ### The header that is found -/

/-- The word that would be the magic one of a header in front of `ptr` is not. -/
def Clear (h : Heap) (ptr : Nat) : Prop := h.mem (ptr - headerSize) ≠ heapMagic

instance (h : Heap) (ptr : Nat) : Decidable (Clear h ptr) := inferInstanceAs (Decidable (_ ≠ _))

/-- The pointer stored in front of an aligned one leads to the header. -/
theorem headerOf_stored (fits : Fits h h.heapStart bs) (mem_ : (a, b) ∈ places 32 h.heapStart bs)
    {ptr : Nat} (even : ptr % 8 = 0) (low : a + 40 ≤ ptr) (high : ptr < a + 32 + b.size)
    (stored : h.mem (ptr - 8) = a + 32) (clear : Clear h ptr) : headerOf h ptr = some a := by
  obtain ⟨hdr, -⟩ := fits.guess mem_ even (by omega) high.le
  obtain ⟨first, last⟩ := bounds_of_mem mem_
  have end_ := fits.end_
  have top := fits.high
  have notMagic : (!heapHeaderValid h (ptr - 32) || h.magic (ptr - 32) ≠ heapMagic) = true := by
    simp only [Bool.or_eq_true, decide_eq_true_eq]
    exact .inr clear
  have word : sub64 ptr 8 = ptr - 8 := sub64_eq (by omega) (by omega)
  have lower : u64 (h.heapStart + 8) = h.heapStart + 8 := u64_eq (by omega)
  have lower' : u64 (h.heapStart + headerSize) = h.heapStart + 32 := u64_eq (by unfold headerSize; omega)
  have back : sub64 (a + 32) headerSize = a := by
    unfold headerSize
    rw [sub64_eq (by omega) (by omega)]
    omega
  unfold headerOf
  dsimp only
  rw [hdr, if_pos notMagic, lower, if_neg (by omega), word, stored, lower', heapEnd_eq top,
    if_neg (by omega), back]

/-- A word that is the magic one is taken for a header. -/
theorem headerOf_stale (fits : Fits h h.heapStart bs) (mem_ : (a, b) ∈ places 32 h.heapStart bs)
    {ptr : Nat} (even : ptr % 8 = 0) (low : a + 32 ≤ ptr) (high : ptr < a + 32 + b.size)
    (stale : ¬Clear h ptr) : headerOf h ptr = some (ptr - 32) := by
  obtain ⟨hdr, valid⟩ := fits.guess mem_ even low high.le
  have magic : h.magic (ptr - 32) = heapMagic := of_not_not stale
  have good : ¬(!heapHeaderValid h (ptr - 32) || h.magic (ptr - 32) ≠ heapMagic) = true := by
    simp [valid, magic]
  unfold headerOf
  dsimp only
  rw [hdr, if_neg good]

/-! ### Use -/

namespace Aligned

inductive Op where
  | kmalloc (size : Nat)
  | kmallocAligned (size alignment : Nat)
  | kfree (ptr : Nat)
  | write (a v : Nat)

/-- A live allocation: the pointer, the one `kmalloc` returned for it, and what was
asked for. -/
structure Lease where
  ptr : Nat
  raw : Nat
  size : Nat
  alignment : Nat
deriving DecidableEq

structure State where
  heap : Heap
  live : List Lease

def perform (s : State) : Op → Option State
  | .kmalloc size =>
    match Kmalloc.kmalloc s.heap size with
    | (h, ptr) => some ⟨h, if ptr = 0 then s.live else ⟨ptr, ptr, size, 1⟩ :: s.live⟩
  | .kmallocAligned size alignment =>
    match Kmalloc.kmallocAligned s.heap size alignment with
    | (h, ptr) =>
      let raw := if alignment ≤ 8 then ptr else h.mem (ptr - 8)
      some ⟨h, if ptr = 0 then s.live else ⟨ptr, raw, size, alignment⟩ :: s.live⟩
  | .kfree ptr => some ⟨Kmalloc.kfree s.heap ptr, s.live.eraseP (·.ptr = ptr)⟩
  | .write a v => some ⟨s.heap.store a v, s.live⟩

def Step (s : State) (op : Op) (s' : State) : Prop := perform s op = some s'

/-- The allocator is asked for at most 2^63 bytes, aligned to a power of two, and gets
back what it gave; everybody writes to its own words. -/
def Proper (s : State) : Op → Prop
  | .kmalloc size => size ≤ 2 ^ 63
  | .kmallocAligned size alignment => size + alignment + 8 ≤ 2 ^ 63 ∧ 2 ^ alignment.log2 = alignment
  | .kfree ptr => ∃ x ∈ s.live, x.ptr = ptr
  | .write a _ => a % 8 = 0 ∧ ∃ x ∈ s.live, x.ptr ≤ a ∧ a < x.ptr + x.size

instance (s : State) (op : Op) : Decidable (Proper s op) := by
  cases op <;> unfold Proper <;> infer_instance

/-- No aligned pointer is freed behind a word that looks like a magic one. -/
def Safe (s : State) : Op → Prop
  | .kfree ptr => ∀ x ∈ s.live, x.ptr = ptr → 8 < x.alignment → Clear s.heap ptr
  | _ => True

instance (s : State) (op : Op) : Decidable (Safe s op) := by
  cases op <;> unfold Safe <;> infer_instance

def ProperSafe (s : State) (op : Op) : Prop := Proper s op ∧ Safe s op

instance (s : State) (op : Op) : Decidable (ProperSafe s op) := inferInstanceAs (Decidable (_ ∧ _))

/-! ### The invariant -/

/-- A live pointer is in the body of the block `b` at `a`, and in front of an aligned one
stands the pointer to that body. -/
structure Held (mem : Nat → Nat) (x : Lease) (a : Nat) (b : Chunk) : Prop where
  raw : x.raw = a + 32
  even : x.ptr % 8 = 0
  low : x.raw ≤ x.ptr
  high : x.ptr < x.raw + b.size
  enough : x.ptr + x.size ≤ x.raw + b.size
  plain : x.alignment ≤ 8 → x.ptr = x.raw
  stored : 8 < x.alignment → x.raw + 8 ≤ x.ptr ∧ mem (x.ptr - 8) = x.raw

structure Leased (s : State) (bs : List Chunk) : Prop where
  nonempty : bs ≠ []
  chain : Chain s.heap.mem s.heap.heapStart bs
  fits : Fits s.heap s.heap.heapStart bs
  held : ∀ x ∈ s.live, ∃ a b, (a, b) ∈ used 32 s.heap.heapStart bs ∧ Held s.heap.mem x a b
  nodup : (s.live.map Lease.raw).Nodup

variable {s s' : State} {x : Lease} {live : List Lease}

/-- Only the word in front of the pointer matters. -/
theorem Held.congr (held : Held mem x a b) (same : 8 < x.alignment → mem' (x.ptr - 8) = mem (x.ptr - 8)) :
    Held mem' x a b :=
  ⟨held.raw, held.even, held.low, held.high, held.enough, held.plain, fun over_ =>
    ⟨(held.stored over_).1, (same over_).trans (held.stored over_).2⟩⟩

theorem Held.quiet (held : Held mem x a b) (taken : (a, b) ∈ used 32 p bs) (quiet : Quiet mem mem' p bs) :
    Held mem' x a b := by
  refine held.congr fun over_ => quiet _ taken _ ?_ ?_
  · have := (held.stored over_).1
    have := held.raw
    dsimp only
    omega
  · have := held.raw
    have := held.high
    dsimp only
    omega

namespace Leased

/-- `kmalloc` takes a block that nobody has, or fails. -/
theorem serves (leased : Leased s bs) {size : Nat} (le : size + 7 < 2 ^ 64) :
    kmalloc s.heap size = (s.heap, 0) ∨
    ∃ a b cs h', kmalloc s.heap size = (h', a + 32) ∧ 0 < size ∧ size ≤ b.size ∧
      (a, b) ∈ used 32 h'.heapStart cs ∧ Leased ⟨h', s.live⟩ cs ∧ a + 32 ∉ s.live.map Lease.raw ∧
      Frame s.heap h' s.heap.heapStart := by
  by_cases zero : size = 0
  · exact .inl (if_pos (.inr zero))
  · have eq : kmalloc s.heap size = kmallocFrom s.heap (align size 8) heapWalkMax s.heap.heapStart :=
      if_neg fun h => h.elim (Nat.ne_of_gt leased.fits.start) zero
    have rounded : align size 8 = (size + 7) / 8 * 8 := by
      unfold align
      rw [u64_eq (by omega : size + 8 - 1 < 2 ^ 64)]
      omega
    have even : align size 8 % 8 = 0 := by omega
    rcases kmallocFrom_serves heapWalkMax leased.chain leased.fits leased.nonempty even with
      none_ | ⟨a, cs, h', ran, done, chain, frame, quiet⟩
    · exact .inl (eq.trans none_)
    · obtain ⟨b, large, perm⟩ := done.used
      have start := frame.heapStart
      have new : a + 32 ∉ s.live.map Lease.raw := by
        intro old
        obtain ⟨x, mem_, same⟩ := List.mem_map.mp old
        obtain ⟨d, c, taken, held⟩ := leased.held x mem_
        have raw := held.raw
        obtain rfl : d = a := by omega
        have whole := used_nodup (by decide : 0 < 32) s.heap.heapStart cs
        rw [(perm.map Prod.fst).nodup_iff, List.map_cons, List.nodup_cons] at whole
        exact whole.1 (List.mem_map.mpr ⟨_, taken, rfl⟩)
      refine .inr ⟨a, b, cs, h', eq.trans ran, Nat.pos_of_ne_zero zero, by omega, ?_, ⟨done.ne_nil.2, ?_, ?_,
        ?_, leased.nodup⟩, new, frame⟩
      · rw [start]
        exact perm.mem_iff.mpr List.mem_cons_self
      · rw [start]
        exact chain
      · rw [start]
        exact leased.fits.congr frame done.extent
      · intro x mem_
        obtain ⟨d, c, taken, held⟩ := leased.held x mem_
        refine ⟨d, c, ?_, held.quiet taken quiet⟩
        rw [start]
        exact perm.mem_iff.mpr (List.mem_cons_of_mem _ taken)

/-- A new allocation in a block that nobody has. -/
theorem lease (leased : Leased ⟨h, live⟩ bs) (taken : (a, b) ∈ used 32 h.heapStart bs)
    (held : Held h.mem x a b) (new : x.raw ∉ live.map Lease.raw) : Leased ⟨h, x :: live⟩ bs where
  nonempty := leased.nonempty
  chain := leased.chain
  fits := leased.fits
  held := List.forall_mem_cons.mpr ⟨⟨a, b, taken, held⟩, leased.held⟩
  nodup := List.nodup_cons.mpr ⟨new, leased.nodup⟩

/-- Words in the body of a block are written behind the pointer of its owner. -/
theorem store (leased : Leased ⟨h, live⟩ bs) (taken : (a, b) ∈ used 32 h.heapStart bs) {y : Nat} (v : Nat)
    (low : a + 32 ≤ y) (high : y < a + 32 + b.size)
    (own : ∀ x ∈ live, x.raw = a + 32 → x.ptr ≤ y) : Leased ⟨h.store y v, live⟩ bs := by
  obtain ⟨placed, -⟩ := mem_used.mp taken
  refine ⟨leased.nonempty, ?_, ⟨leased.fits.start, leased.fits.low, leased.fits.end_, leased.fits.high,
    leased.fits.total⟩, fun x mem_ => ?_, leased.nodup⟩
  · refine leased.chain.agree fun u mem' z left right => ?_
    have apart := body_apart placed mem' low high
    show (h.store y v).mem z = h.mem z
    rw [mem_store, if_neg (by omega)]
  · obtain ⟨d, c, taken', held⟩ := leased.held x mem_
    refine ⟨d, c, taken', held.congr fun over_ => ?_⟩
    have front := (held.stored over_).1
    have raw := held.raw
    have inside := held.high
    show (h.store y v).mem (x.ptr - 8) = h.mem (x.ptr - 8)
    rw [mem_store, if_neg]
    rcases places_apart placed (mem_used.mp taken').1 with same | before | behind
    · obtain ⟨rfl, rfl⟩ := Prod.mk.inj same
      have := own x mem_ raw
      omega
    · omega
    · omega

theorem perform_kmalloc {size ptr : Nat} (eq : kmalloc s.heap size = (h, ptr)) :
    perform s (.kmalloc size) = some ⟨h, if ptr = 0 then s.live else ⟨ptr, ptr, size, 1⟩ :: s.live⟩ := by
  simp only [perform, eq]

theorem perform_kmallocAligned {size alignment ptr : Nat}
    (eq : kmallocAligned s.heap size alignment = (h, ptr)) :
    perform s (.kmallocAligned size alignment) = some ⟨h, if ptr = 0 then s.live else
      ⟨ptr, if alignment ≤ 8 then ptr else h.mem (ptr - 8), size, alignment⟩ :: s.live⟩ := by
  simp only [perform, eq]

/-- A pointer of `kmalloc` is the body of its block. -/
theorem plain (leased : Leased ⟨h, live⟩ bs) {size alignment : Nat} (under : alignment ≤ 8)
    (owned : (a, b) ∈ used 32 h.heapStart bs) (pos : 0 < size) (large : size ≤ b.size)
    (new : a + 32 ∉ live.map Lease.raw) : Leased ⟨h, ⟨a + 32, a + 32, size, alignment⟩ :: live⟩ bs := by
  obtain ⟨q, sits⟩ := leased.chain.sits (mem_used.mp owned).1
  have even : (a + 32) % 8 = 0 := by
    have := sits.aligned
    omega
  have inside : a + 32 < a + 32 + b.size := by omega
  have enough : a + 32 + size ≤ a + 32 + b.size := by omega
  exact leased.lease owned ⟨rfl, even, Nat.le_refl _, inside, enough, fun _ => rfl,
    fun over_ => absurd under (Nat.not_le.mpr over_)⟩ new

/-- `kmalloc` keeps the invariant. -/
theorem kmalloc_ (leased : Leased s bs) {size : Nat} (le : size + 7 < 2 ^ 64) :
    ∃ s' cs, perform s (.kmalloc size) = some s' ∧ Leased s' cs ∧
      Frame s.heap s'.heap s.heap.heapStart := by
  rcases leased.serves le with eq | ⟨a, b, cs, h', eq, pos, large, owned, leased', new, frame⟩
  · exact ⟨_, bs, perform_kmalloc eq, leased, .refl _ _⟩
  · refine ⟨_, cs, perform_kmalloc eq, ?_, frame⟩
    rw [if_neg (by omega)]
    exact leased'.plain (by decide) owned pos large new

/-- Rounding up to a power of two. -/
theorem align_bounds {alignment : Nat} (power : 2 ^ alignment.log2 = alignment) (over_ : 8 < alignment)
    (below : a + alignment ≤ 2 ^ 64) :
    a ≤ align a alignment ∧ align a alignment < a + alignment ∧ align a alignment % 8 = 0 := by
  have three : 3 ≤ alignment.log2 := (Nat.le_log2 (by omega)).mpr (by omega)
  have eight : 8 ∣ alignment := by
    rw [← power]
    exact Nat.pow_dvd_pow 2 three
  unfold align
  rw [u64_eq (by omega)]
  have division := Nat.div_add_mod (a + alignment - 1) alignment
  have remainder := Nat.mod_lt (a + alignment - 1) (by omega : alignment > 0)
  rw [Nat.mul_comm] at division
  exact ⟨by omega, by omega, Nat.mod_eq_zero_of_dvd (Nat.dvd_trans eight (Nat.dvd_mul_left _ _))⟩

/-- `kmalloc_aligned` keeps the invariant. -/
theorem kmallocAligned_ (leased : Leased s bs) {size alignment : Nat}
    (le : size + alignment + 15 < 2 ^ 64) (power : 2 ^ alignment.log2 = alignment) :
    ∃ s' cs, perform s (.kmallocAligned size alignment) = some s' ∧ Leased s' cs ∧
      Frame s.heap s'.heap s.heap.heapStart := by
  by_cases under : alignment ≤ 8
  · have same : kmallocAligned s.heap size alignment = kmalloc s.heap size := if_pos under
    rcases leased.serves (by omega : size + 7 < 2 ^ 64) with
      eq | ⟨a, b, cs, h', eq, pos, large, owned, leased', new, frame⟩
    · exact ⟨_, bs, perform_kmallocAligned (same.trans eq), leased, .refl _ _⟩
    · refine ⟨_, cs, perform_kmallocAligned (same.trans eq), ?_, frame⟩
      rw [if_neg (by omega), if_pos under]
      exact leased'.plain under owned pos large new
  · have total : u64 (u64 (size + alignment) + 8) = size + alignment + 8 := by
      rw [u64_eq (by omega : size + alignment < 2 ^ 64), u64_eq (by omega)]
    rcases leased.serves (by omega : size + alignment + 8 + 7 < 2 ^ 64) with
      eq | ⟨a, b, cs, h', eq, -, large, owned, leased', new, frame⟩
    · have none_ : kmallocAligned s.heap size alignment = (s.heap, 0) := by
        unfold kmallocAligned
        rw [if_neg under]
        simp only [total, eq, if_pos]
      exact ⟨_, bs, perform_kmallocAligned none_, leased, .refl _ _⟩
    · have placed := (mem_used.mp owned).1
      obtain ⟨top, -⟩ := leased'.fits.bound placed
      have high := leased'.fits.high
      have raw : u64 (a + 32 + 8) = a + 40 := u64_eq (by omega)
      obtain ⟨low, near, even⟩ := align_bounds (a := a + 40) power (by omega) (by omega)
      have done : kmallocAligned s.heap size alignment =
          (h'.store (align (a + 40) alignment - 8) (a + 32), align (a + 40) alignment) := by
        unfold kmallocAligned
        rw [if_neg under]
        simp only [total, eq]
        rw [if_neg (by omega), raw, sub64_eq (by omega) (by omega)]
      generalize align (a + 40) alignment = addr at low near even done
      have fresh : ∀ x ∈ s.live, x.raw = a + 32 → x.ptr ≤ addr - 8 := fun x mem_ same =>
        absurd (List.mem_map.mpr ⟨x, mem_, same⟩) new
      have stored := leased'.store owned (a + 32) (by omega) (by omega : addr - 8 < _) fresh
      have word : (h'.store (addr - 8) (a + 32)).mem (addr - 8) = a + 32 := by
        rw [mem_store, if_pos rfl]
      refine ⟨_, cs, perform_kmallocAligned done, ?_, frame.heapStart, frame.heapTotal, fun x lt => ?_⟩
      · rw [if_neg (by omega), if_neg under, word]
        have inside : addr < a + 32 + b.size := by omega
        have enough : addr + size ≤ a + 32 + b.size := by omega
        have back : a + 32 + 8 ≤ addr := low
        exact stored.lease owned ⟨rfl, even, by dsimp only; omega, inside, enough,
          fun under' => absurd under' under, fun _ => ⟨back, word⟩⟩ new
      · have first := (bounds_of_mem placed).1
        have start := frame.heapStart
        dsimp only
        rw [mem_store, if_neg (by omega)]
        exact frame.below x lt

/-- The header of the block that backs a live pointer is found if nothing in front of the
pointer looks like a header. -/
theorem found (leased : Leased s bs) (mem_ : x ∈ s.live) (safe : 8 < x.alignment → Clear s.heap x.ptr) :
    ∃ a b, (a, b) ∈ used 32 s.heap.heapStart bs ∧ Held s.heap.mem x a b ∧
      headerOf s.heap x.ptr = some a := by
  obtain ⟨a, b, taken, held⟩ := leased.held x mem_
  refine ⟨a, b, taken, held, ?_⟩
  have placed := (mem_used.mp taken).1
  have raw := held.raw
  by_cases over_ : 8 < x.alignment
  · obtain ⟨back, word⟩ := held.stored over_
    have high := held.high
    exact headerOf_stored leased.fits placed held.even (by omega) (by omega) (word.trans raw) (safe over_)
  · have same := held.plain (by omega)
    rw [same, raw]
    exact headerOf_plain leased.chain leased.fits placed

/-- `kfree` keeps the invariant when it finds the header. -/
theorem kfree_ (leased : Leased s bs) {ptr : Nat} (live : ∃ x ∈ s.live, x.ptr = ptr)
    (safe : Safe s (.kfree ptr)) :
    ∃ s' cs, perform s (.kfree ptr) = some s' ∧ Leased s' cs ∧
      Frame s.heap s'.heap s.heap.heapStart := by
  obtain ⟨x₀, mem₀, same₀⟩ := live
  obtain ⟨x, l₁, l₂, -, same, split, erased⟩ :=
    List.exists_of_eraseP (p := fun x : Lease => decide (x.ptr = ptr)) mem₀ (decide_eq_true same₀)
  have same : x.ptr = ptr := of_decide_eq_true same
  have mem_ : x ∈ s.live := by
    rw [split]
    exact List.mem_append_right _ List.mem_cons_self
  obtain ⟨a, b, taken, held, header⟩ := leased.found mem_ fun over_ => same ▸ safe x mem_ same over_
  have placed := (mem_used.mp taken).1
  have raw := held.raw
  have low := held.low
  have high := held.high
  rw [same] at header low high
  obtain ⟨cs, joined⟩ := kfree_joined leased.chain leased.fits taken (by omega) (by omega) header
  have start : (kfree s.heap ptr).heapStart = s.heap.heapStart := joined.frame.heapStart
  have frame : Frame s.heap (kfree s.heap ptr) s.heap.heapStart := by
    refine ⟨start, joined.frame.heapTotal, fun y lt => ?_⟩
    have first := (bounds_of_mem placed).1
    rw [joined.frame.below y lt, mem_setFree, if_neg (by omega)]
  have quiet : Quiet s.heap.mem (kfree s.heap ptr).mem s.heap.heapStart bs := by
    intro u owned y front behind
    have inside := (mem_used.mp owned).1
    have here := body_apart (b := u.2) inside placed front behind
    rw [joined.words, mem_setFree, if_neg (by omega)]
    intro z mem'
    obtain ⟨c, before⟩ := mem_places_release mem'
    have there := body_apart (b := u.2) inside before front behind
    dsimp only at there
    omega
  have nodup := leased.nodup
  rw [split, List.map_append, List.map_cons, List.perm_middle.nodup_iff, List.nodup_cons,
    ← List.map_append] at nodup
  have perm := used_release (by decide) taken
  refine ⟨_, cs, rfl, ⟨joined.nonempty, ?_, ?_, fun y left => ?_, ?_⟩, frame⟩
  · dsimp only
    rw [start]
    exact joined.chain
  · dsimp only
    rw [start]
    exact leased.fits.congr frame (joined.extent.trans (extent_release 32 a s.heap.heapStart bs))
  · dsimp only at left ⊢
    rw [erased] at left
    have still : y ∈ s.live := by
      rw [split]
      rcases List.mem_append.mp left with l | r
      · exact List.mem_append_left _ l
      · exact List.mem_append_right _ (List.mem_cons_of_mem _ r)
    have differ : y.raw ≠ x.raw := by
      intro eq
      exact nodup.1 (eq ▸ List.mem_map_of_mem left)
    obtain ⟨d, c, owned, held'⟩ := leased.held y still
    refine ⟨d, c, ?_, held'.quiet owned quiet⟩
    rw [start, joined.used]
    rcases List.mem_cons.mp (perm.mem_iff.mp owned) with eq | other
    · have := (Prod.mk.inj eq).1
      have := held'.raw
      omega
    · exact other
  · dsimp only
    rw [erased]
    exact nodup.2

theorem write_ (leased : Leased s bs) {y : Nat} (v : Nat)
    (owned : ∃ x ∈ s.live, x.ptr ≤ y ∧ y < x.ptr + x.size) : Leased ⟨s.heap.store y v, s.live⟩ bs := by
  obtain ⟨x, mem_, low, high⟩ := owned
  obtain ⟨a, b, taken, held⟩ := leased.held x mem_
  have raw := held.raw
  have front := held.low
  have enough := held.enough
  refine Leased.store leased taken v (by omega) (by omega) fun x' mem' same => ?_
  obtain rfl : x' = x := List.inj_on_of_nodup_map leased.nodup mem' mem_ (same.trans raw.symm)
  exact low

/-- One step of the heap or its users. -/
theorem step (leased : Leased s bs) {op : Op} (ok : ProperSafe s op) (taken : Step s op s') :
    ∃ cs, Leased s' cs ∧ s'.heap.heapStart = s.heap.heapStart ∧
      s'.heap.heapTotal = s.heap.heapTotal := by
  obtain ⟨proper, safe⟩ := ok
  have kept : ∀ {t cs}, perform s op = some t → Leased t cs → Frame s.heap t.heap s.heap.heapStart →
      ∃ cs, Leased s' cs ∧ s'.heap.heapStart = s.heap.heapStart ∧
        s'.heap.heapTotal = s.heap.heapTotal := by
    intro t cs done leased' frame
    obtain rfl := Option.some.inj (done.symm.trans taken)
    exact ⟨cs, leased', frame.heapStart, frame.heapTotal⟩
  cases op with
  | kmalloc size =>
    obtain ⟨t, cs, done, leased', frame⟩ := leased.kmalloc_ (show size + 7 < 2 ^ 64 by
      have : size ≤ 2 ^ 63 := proper
      omega)
    exact kept done leased' frame
  | kmallocAligned size alignment =>
    obtain ⟨t, cs, done, leased', frame⟩ := leased.kmallocAligned_ (show size + alignment + 15 < 2 ^ 64 by
      have := proper.1
      omega) proper.2
    exact kept done leased' frame
  | kfree ptr =>
    obtain ⟨t, cs, done, leased', frame⟩ := leased.kfree_ proper safe
    exact kept done leased' frame
  | write y v =>
    obtain rfl := Option.some.inj taken
    exact ⟨bs, leased.write_ v proper.2, rfl, rfl⟩

/-- `kfree` frees the block that backs the pointer. -/
theorem frees (leased : Leased s bs) (mem_ : x ∈ s.live) (safe : 8 < x.alignment → Clear s.heap x.ptr) :
    ∃ a, Frees s.heap (kfree s.heap x.ptr) x.ptr a := by
  obtain ⟨a, b, taken, held, header⟩ := leased.found mem_ safe
  have raw := held.raw
  have low := held.low
  have high := held.high
  exact ⟨a, kfree_frees leased.chain leased.fits taken (by omega) (by omega) header⟩

end Leased

/-- In a heap that ends at an aligned address all sizes are aligned. -/
theorem even_sizes (chain : Chain mem p bs) (even : (p + extent 32 bs) % 8 = 0)
    (mem_ : (a, b) ∈ places 32 p bs) : b.size % 8 = 0 := by
  induction bs generalizing p with
  | nil => cases mem_
  | cons c bs ih =>
    have here := chain.1.aligned
    have whole : extent 32 (c :: bs) = 32 + c.size + extent 32 bs := rfl
    rcases List.mem_cons.mp mem_ with same | later
    · obtain ⟨rfl, rfl⟩ := Prod.mk.inj same
      cases bs with
      | nil =>
        have none_ : extent 32 [] = 0 := rfl
        omega
      | cons d bs =>
        have behind := chain.2.1.aligned
        omega
    · refine ih chain.2 ?_ later
      have at_ : p + extent 32 (c :: bs) = p + 32 + c.size + extent 32 bs := by omega
      rwa [at_] at even

/-- **A stale header is taken for the real one**: then the block stays taken. -/
theorem Leased.not_frees (leased : Leased s bs)
    (even : (s.heap.heapStart + s.heap.heapTotal + 32) % 8 = 0) (mem_ : x ∈ s.live)
    (over_ : 8 < x.alignment) (stale : ¬Clear s.heap x.ptr) :
    ¬∃ a, Frees s.heap (kfree s.heap x.ptr) x.ptr a := by
  rintro ⟨d, freed⟩
  obtain ⟨a, b, taken, held⟩ := leased.held x mem_
  obtain ⟨placed, notFree⟩ := mem_used.mp taken
  obtain ⟨q, sits⟩ := leased.chain.sits placed
  obtain ⟨back, -⟩ := held.stored over_
  have raw := held.raw
  have high := held.high
  have aligned := held.even
  have magic : s.heap.mem (x.ptr - 32) = heapMagic := of_not_not stale
  -- the block that backs the pointer is the one the pointer is in
  obtain rfl : d = a := by
    obtain ⟨c, placed'⟩ := (block_iff leased.chain leased.fits.start leased.nonempty d).mp freed.block
    obtain ⟨q', sits'⟩ := leased.chain.sits placed'
    obtain ⟨front, behind⟩ := freed.backs
    have size : s.heap.size d = c.size := sits'.size
    rw [size] at behind
    unfold headerSize at front behind
    rcases places_apart placed placed' with same | before | after
    · exact (Prod.mk.inj same).1.symm
    · omega
    · omega
  -- the size of a block is no magic word
  have far : d + 48 ≤ x.ptr := by
    have whole := even_sizes leased.chain (leased.fits.end_ ▸ even) placed
    by_contra near
    have at_ : x.ptr - 32 = d + 8 := by
      have := sits.aligned
      omega
    rw [at_, sits.size] at magic
    rw [magic] at whole
    exact absurd whole (by decide)
  have before : s.heap.free d = 0 := freed.before
  apply freed.marked
  have header := headerOf_stale leased.fits placed aligned (by omega) (by omega) stale
  unfold kfree
  split
  · exact before
  · split
    · exact before
    · rw [header]
      dsimp only
      split
      · exact before
      · have word : x.ptr - 32 + 16 = x.ptr - 16 := by omega
        have chain : Chain (s.heap.setFree (x.ptr - 32) 1).mem s.heap.heapStart bs := by
          refine leased.chain.agree fun y mem' z front behind => ?_
          have apart := body_apart (x := x.ptr - 16) placed mem' (by omega) (by omega)
          rw [mem_setFree, if_neg (by omega)]
        have fits : Fits (s.heap.setFree (x.ptr - 32) 1) s.heap.heapStart bs :=
          ⟨leased.fits.start, leased.fits.low, leased.fits.end_, leased.fits.high, leased.fits.total⟩
        have some_ := leased.nonempty
        cases bs with
        | nil => exact absurd rfl some_
        | cons c bs =>
          obtain ⟨cs, joined⟩ := coalesceFrom_keeps heapWalkMax chain fits
          have same : (coalesce (s.heap.setFree (x.ptr - 32) 1)).free d =
              (s.heap.setFree (x.ptr - 32) 1).free d := joined.free placed
          rw [same]
          unfold Heap.free at before ⊢
          rw [mem_setFree, if_neg (by omega)]
          exact before

/-! ### Every run -/

theorem leased_of_sound (sound : Sound ⟨h, []⟩ bs) : Leased ⟨h, []⟩ bs where
  nonempty := sound.nonempty
  chain := sound.chain
  fits := sound.fits
  held _ mem_ := nomatch mem_
  nodup := .nil

theorem step_off {op : Op} (off : s.heap.heapStart = 0 ∧ s.live = []) (proper : Proper s op)
    (taken : Step s op s') : s'.heap.heapStart = 0 ∧ s'.live = [] := by
  obtain ⟨start, none_⟩ := off
  have fails : ∀ size, kmalloc s.heap size = (s.heap, 0) := fun size => if_pos (.inl start)
  cases op with
  | kmalloc size =>
    obtain rfl := Option.some.inj ((Leased.perform_kmalloc (fails size)).symm.trans taken)
    exact ⟨start, none_⟩
  | kmallocAligned size alignment =>
    have none' : kmallocAligned s.heap size alignment = (s.heap, 0) := by
      unfold kmallocAligned
      simp only [fails, if_pos, ite_self]
    obtain rfl := Option.some.inj ((Leased.perform_kmallocAligned none').symm.trans taken)
    exact ⟨start, none_⟩
  | kfree ptr =>
    obtain ⟨x, mem_, -⟩ := proper
    rw [none_] at mem_
    cases mem_
  | write y v =>
    obtain ⟨-, x, mem_, -⟩ := proper
    rw [none_] at mem_
    cases mem_

/-- What is reached from `heap_init` on is sound, once something is live. -/
theorem leased_of_run {mem : Nat → Nat} {start size : Nat} {ops : List Op} (small : size < 2 ^ 32)
    (inside : start + size < 2 ^ 64)
    (run : Run Step ProperSafe ⟨heapInit (statics mem) start size, []⟩ ops s) (some_ : x ∈ s.live) :
    ∃ bs, Leased s bs ∧ s.heap.heapStart + s.heap.heapTotal + 32 = start + size := by
  have init := heapInit_heapStart mem small inside
  by_cases off : size < 48 ∨ start = 0
  · have start_ := init.mpr off
    have reached := run.invariant (P := fun s => s.heap.heapStart = 0 ∧ s.live = []) ⟨start_, rfl⟩
      fun off' ok taken => step_off off' ok.1 taken
    rw [reached.2] at some_
    cases some_
  · obtain ⟨big, nonzero⟩ := not_or.mp off
    obtain ⟨n, first, end_, total⟩ := heapInit_sound mem small inside big nonzero
    generalize heapInit (statics mem) start size = h₀ at *
    obtain ⟨⟨bs, leased⟩, sameStart, sameTotal⟩ := run.invariant
      (P := fun s => (∃ bs, Leased s bs) ∧ s.heap.heapStart = h₀.heapStart ∧ s.heap.heapTotal = h₀.heapTotal)
      ⟨⟨_, leased_of_sound first⟩, rfl, rfl⟩ (by
        rintro s op t ⟨⟨bs, leased⟩, sameStart, sameTotal⟩ ok taken
        obtain ⟨cs, leased', start', total'⟩ := leased.step ok taken
        exact ⟨⟨cs, leased'⟩, start'.trans sameStart, total'.trans sameTotal⟩)
    exact ⟨bs, leased, by rw [sameStart, sameTotal, total, end_]⟩

/-- **`kfree` of aligned blocks.** In every run from `heap_init` on in which no aligned
pointer is freed behind a word that looks like a magic one: `kfree` of a live aligned pointer
marks free exactly the block that backs it, if the word 32 bytes in front of it is not the
magic one. In a heap that ends at an aligned address it does not if that word is. -/
theorem run_frees {mem : Nat → Nat} {start size : Nat} {ops : List Op} (small : size < 2 ^ 32)
    (inside : start + size < 2 ^ 64)
    (run : Run Step ProperSafe ⟨heapInit (statics mem) start size, []⟩ ops s) (x : Lease)
    (live : x ∈ s.live) (over_ : 8 < x.alignment) :
    (Clear s.heap x.ptr → ∃ a, Frees s.heap (kfree s.heap x.ptr) x.ptr a) ∧
    ((start + size) % 8 = 0 → ¬Clear s.heap x.ptr →
      ¬∃ a, Frees s.heap (kfree s.heap x.ptr) x.ptr a) := by
  obtain ⟨bs, leased, end_⟩ := leased_of_run small inside run live
  exact ⟨fun clear => leased.frees live fun _ => clear,
    fun even => leased.not_frees (end_ ▸ even) live over_⟩

/-- A block that is aligned to 64 bytes, after another one is freed. -/
theorem run_frees_one :
    ∃ s, Run Step ProperSafe ⟨heapInit (statics fun _ => 0) 4096 1024, []⟩
        [.kmalloc 10, .kmallocAligned 100 64, .kfree 4128] s ∧
      ∃ a, Frees s.heap (kfree s.heap 4224) 4224 a := by
  have done : ((runAll perform ProperSafe ⟨heapInit (statics fun _ => 0) 4096 1024, []⟩
      [.kmalloc 10, .kmallocAligned 100 64, .kfree 4128]).filter fun s =>
      (⟨4224, 4176, 100, 64⟩ : Lease) ∈ s.live ∧ Clear s.heap 4224).isSome = true := by
    decide +kernel
  obtain ⟨s, found⟩ := Option.isSome_iff_exists.mp done
  obtain ⟨ran, holds⟩ := Option.filter_eq_some_iff.mp found
  obtain ⟨live, clear⟩ := of_decide_eq_true holds
  have run : Run Step ProperSafe _ _ s := .of_runAll ran
  exact ⟨s, run, (run_frees (by decide) (by decide) run _ live (by decide)).1 clear⟩

/-- In the kernel's heap, a block whose predecessor was 64 bytes long: the header that stood
behind that one is still there, and nothing is freed. -/
theorem stale_header_leaks :
    ∃ s, Run Step Proper ⟨heapInit (statics fun _ => 0) 0x400000 (8 * 1024 * 1024), []⟩
        [.kmalloc 64, .kfree 0x400020, .kmallocAligned 16 128] s ∧
      (⟨0x400080, 0x400020, 16, 128⟩ : Lease) ∈ s.live ∧
      ¬∃ a, Frees s.heap (kfree s.heap 0x400080) 0x400080 a := by
  have done : ((runAll perform ProperSafe ⟨heapInit (statics fun _ => 0) 0x400000 (8 * 1024 * 1024), []⟩
      [.kmalloc 64, .kfree 0x400020, .kmallocAligned 16 128]).filter fun s =>
      (⟨0x400080, 0x400020, 16, 128⟩ : Lease) ∈ s.live ∧ ¬Clear s.heap 0x400080).isSome = true := by
    decide
  obtain ⟨s, found⟩ := Option.isSome_iff_exists.mp done
  obtain ⟨ran, holds⟩ := Option.filter_eq_some_iff.mp found
  obtain ⟨live, stale⟩ := of_decide_eq_true holds
  have run : Run Step ProperSafe _ _ s := .of_runAll ran
  obtain ⟨bs, leased, end_⟩ := leased_of_run (by decide) (by decide) run live
  refine ⟨s, run.mono fun ok => ok.1, live, leased.not_frees ?_ live (by decide) stale⟩
  rw [end_]

end Aligned

end AtmKoala.Kmalloc
