import AtmKoala.Lib.Tiling
import AtmKoala.Kmalloc.Model

/-!
The heap is a row of blocks.

* `Chain`: the memory from an address on holds the headers of a list of blocks, each
  linked to the one behind it.
* The loops of the allocator do on the memory what `allocate`, `release` and
  `coalesced` do on the list (`kmallocFrom_spec`, `coalesceFrom_spec`,
  `chain_release`), and change nothing in front of it (`Frame`).
* `kfree_eq`: the pointer of a taken block leads to its header.
-/

namespace AtmKoala.Kmalloc

open Lib

variable {h h' : Heap} {mem mem' : Nat → Nat} {p q a n : Nat} {b c : Chunk} {bs bs' : List Chunk}

/-! ### Arithmetic -/

theorem u64_eq {n : Nat} (lt : n < 2 ^ 64) : u64 n = n := Nat.mod_eq_of_lt lt

theorem sub64_eq {m n : Nat} (le : n ≤ m) (lt : m < 2 ^ 64) : sub64 m n = m - n := by
  unfold sub64
  rw [u64_eq (lt_of_le_of_lt le lt)]
  unfold u64
  omega

theorem mem_store (h : Heap) (a v x : Nat) :
    (h.store a v).mem x = if x = a then v else h.mem x := by
  unfold Heap.store
  exact Function.update_apply ..

/-! ### Headers in memory -/

/-- The header of block `b` is at address `p`, linked to `q`. -/
structure Sits (mem : Nat → Nat) (p : Nat) (b : Chunk) (q : Nat) : Prop where
  aligned : p % 8 = 0
  magic : mem p = heapMagic
  size : mem (p + 8) = b.size
  free : mem (p + 16) % 2 ^ 32 = if b.free then 1 else 0
  next : mem (p + 24) = q

/-- The headers of `bs` are in memory from address `p` on. -/
def Chain (mem : Nat → Nat) : Nat → List Chunk → Prop
  | _, [] => True
  | p, b :: bs =>
    Sits mem p b (if bs = [] then 0 else p + 32 + b.size) ∧ Chain mem (p + 32 + b.size) bs

theorem Sits.congr (sits : Sits mem p b q) (same : ∀ x, p ≤ x → x < p + 32 → mem' x = mem x) :
    Sits mem' p b q where
  aligned := sits.aligned
  magic := (same p (by omega) (by omega)).trans sits.magic
  size := (same _ (by omega) (by omega)).trans sits.size
  free := by
    rw [same _ (by omega) (by omega)]
    exact sits.free
  next := (same _ (by omega) (by omega)).trans sits.next

/-- A chain depends on the headers only. -/
theorem Chain.agree (chain : Chain mem p bs)
    (same : ∀ y ∈ places 32 p bs, ∀ x, y.1 ≤ x → x < y.1 + 32 → mem' x = mem x) :
    Chain mem' p bs := by
  induction bs generalizing p with
  | nil => trivial
  | cons b bs ih =>
    obtain ⟨first, rest⟩ := List.forall_mem_cons.mp same
    exact ⟨chain.1.congr first, ih chain.2 rest⟩

theorem Chain.congr (chain : Chain mem p bs) (same : ∀ x, p ≤ x → mem' x = mem x) :
    Chain mem' p bs := by
  refine chain.agree fun y mem_ x low _ => same x ?_
  have := (bounds_of_mem (b := y.2) mem_).1
  omega

theorem Chain.sits (chain : Chain mem p bs) (mem_ : (a, b) ∈ places 32 p bs) :
    ∃ q, Sits mem a b q := by
  induction bs generalizing p with
  | nil => cases mem_
  | cons c bs ih =>
    rcases List.mem_cons.mp mem_ with same | later
    · obtain ⟨rfl, rfl⟩ := Prod.mk.inj same
      exact ⟨_, chain.1⟩
    · exact ih chain.2 later

/-- The blocks `bs` from `p` on are the rest of the heap. -/
structure Fits (h : Heap) (p : Nat) (bs : List Chunk) : Prop where
  start : 0 < h.heapStart
  low : h.heapStart ≤ p
  end_ : p + extent 32 bs = h.heapStart + h.heapTotal + 32
  high : h.heapStart + h.heapTotal + 32 < 2 ^ 64
  total : h.heapTotal < 2 ^ 32

theorem Fits.tail (fits : Fits h p (b :: bs)) : Fits h (p + 32 + b.size) bs := by
  refine ⟨fits.start, ?_, ?_, fits.high, fits.total⟩
  · have := fits.low
    omega
  · have := fits.end_
    unfold extent at this
    omega

theorem heapEnd_eq (high : h.heapStart + h.heapTotal + 32 < 2 ^ 64) :
    h.heapEnd = h.heapStart + h.heapTotal + 32 := by
  unfold Heap.heapEnd headerSize
  rw [u64_eq (by omega : h.heapStart + h.heapTotal < 2 ^ 64), u64_eq high]

/-- Headers of blocks are valid. -/
theorem Fits.valid (fits : Fits h p bs) (mem_ : (a, b) ∈ places 32 p bs) (aligned : a % 8 = 0) :
    heapHeaderValid h a = true := by
  obtain ⟨low, high⟩ := bounds_of_mem mem_
  have start := fits.start
  have first := fits.low
  have end_ := fits.end_
  unfold heapHeaderValid headerSize
  rw [heapEnd_eq fits.high, sub64_eq (by omega) fits.high, decide_eq_true_eq]
  omega

theorem Fits.valid_head (fits : Fits h p (b :: bs)) (aligned : p % 8 = 0) :
    heapHeaderValid h p = true :=
  fits.valid List.mem_cons_self aligned

/-! ### Allocation -/

/-- What an operation on the chain from `p` on leaves alone. -/
structure Frame (h h' : Heap) (p : Nat) : Prop where
  heapStart : h'.heapStart = h.heapStart
  heapTotal : h'.heapTotal = h.heapTotal
  below : ∀ x, x < p → h'.mem x = h.mem x

theorem Frame.refl (h : Heap) (p : Nat) : Frame h h p := ⟨rfl, rfl, fun _ _ => rfl⟩

/-- What `takeBlock` leaves in memory when it splits the block. -/
theorem mem_takeBlock_split {size : Nat} (sizeEq : h.mem (p + 8) = size) (below : p + 32 + size < 2 ^ 64)
    (small : size < 2 ^ 32) (split : n + 32 + 32 ≤ size) (x : Nat) :
    (takeBlock h p n).mem x =
      if x = p + 16 then h.mem (p + 16) - h.mem (p + 16) % 2 ^ 32
      else if x = p + 8 then n
      else if x = p + 24 then p + 32 + n
      else if x = p + 32 + n + 24 then h.mem (p + 24)
      else if x = p + 32 + n + 16 then h.mem (p + 32 + n + 16) - h.mem (p + 32 + n + 16) % 2 ^ 32 + 1
      else if x = p + 32 + n + 8 then size - n - 32
      else if x = p + 32 + n then heapMagic
      else h.mem x := by
  have test : u64 (u64 (n + headerSize) + minSplit) = n + 32 + 32 := by
    unfold headerSize minSplit
    rw [u64_eq (by omega : n + 32 < 2 ^ 64), u64_eq (by omega)]
  have newb : u64 (u64 (p + headerSize) + n) = p + 32 + n := by
    unfold headerSize
    rw [u64_eq (by omega : p + 32 < 2 ^ 64), u64_eq (by omega)]
  have left : sub64 (sub64 size n) headerSize = size - n - 32 := by
    unfold headerSize
    rw [sub64_eq (by omega : n ≤ size) (by omega), sub64_eq (by omega) (by omega)]
  have splits : n + 32 + 32 ≤ h.size p := by
    unfold Heap.size
    omega
  have new_ : ∀ k, k < 32 → p + k ≠ p + 32 + n + 24 ∧ p + k ≠ p + 32 + n + 16 ∧
      p + k ≠ p + 32 + n + 8 ∧ p + k ≠ p + 32 + n := by
    intro k lt
    omega
  obtain ⟨-, -, -, e₄⟩ := new_ 8 (by decide)
  obtain ⟨g₁, g₂, g₃, g₄⟩ := new_ 16 (by decide)
  obtain ⟨-, i₂, i₃, i₄⟩ := new_ 24 (by decide)
  unfold takeBlock
  simp only [test, newb]
  rw [if_pos splits]
  simp only [Heap.setMagic, Heap.setSize, Heap.setFree, Heap.setNext, Heap.size, Heap.next, mem_store,
    if_neg e₄, if_neg g₁, if_neg g₂, if_neg g₃, if_neg g₄, if_neg i₂, if_neg i₃, if_neg i₄,
    sizeEq, left]
  split_ifs <;> omega

/-- What `takeBlock` leaves in memory when it takes the whole block. -/
theorem mem_takeBlock_whole (small : n < 2 ^ 32) (whole : h.mem (p + 8) < n + 32 + 32) (x : Nat) :
    (takeBlock h p n).mem x =
      if x = p + 16 then h.mem (p + 16) - h.mem (p + 16) % 2 ^ 32 else h.mem x := by
  have test : u64 (u64 (n + headerSize) + minSplit) = n + 32 + 32 := by
    unfold headerSize minSplit
    rw [u64_eq (by omega : n + 32 < 2 ^ 64), u64_eq (by omega)]
  have notSplit : ¬n + 32 + 32 ≤ h.size p := by
    unfold Heap.size
    omega
  unfold takeBlock
  simp only [test]
  rw [if_neg notSplit, Heap.setFree, mem_store]
  rfl

theorem takeBlock_statics (h : Heap) (p n : Nat) :
    (takeBlock h p n).heapStart = h.heapStart ∧ (takeBlock h p n).heapTotal = h.heapTotal := by
  unfold takeBlock
  dsimp only
  split
  · exact ⟨rfl, rfl⟩
  · exact ⟨rfl, rfl⟩

/-- The lower half of a word is replaced. -/
theorem lower_half (v k : Nat) (lt : k < 2 ^ 32) : (v - v % 2 ^ 32 + k) % 2 ^ 32 = k := by
  omega

theorem Fits.size_le (fits : Fits h p (b :: bs)) : p + 32 + b.size < 2 ^ 64 ∧ b.size < 2 ^ 32 := by
  have low := fits.low
  have end_ := fits.end_
  have high := fits.high
  have total := fits.total
  unfold extent at end_
  omega

/-- **Taking a block**: it is cut in two if what is left over is worth it. -/
theorem takeBlock_spec (chain : Chain h.mem p (b :: bs)) (fits : Fits h p (b :: bs))
    (le : n ≤ b.size) (even : n % 8 = 0) :
    Chain (takeBlock h p n).mem p
      (if n + 32 + 32 ≤ b.size then ⟨n, false⟩ :: ⟨b.size - n - 32, true⟩ :: bs
        else ⟨b.size, false⟩ :: bs) ∧
    Frame h (takeBlock h p n) p := by
  obtain ⟨sits, rest⟩ := chain
  obtain ⟨below, small⟩ := fits.size_le
  obtain ⟨sameStart, sameTotal⟩ := takeBlock_statics h p n
  have aligned := sits.aligned
  by_cases split : n + 32 + 32 ≤ b.size
  · have mem_ := mem_takeBlock_split sits.size below small split
    rw [if_pos split]
    have other : ∀ x, x < p ∨ p + 32 + n + 32 ≤ x → (takeBlock h p n).mem x = h.mem x := by
      intro x outside
      rw [mem_, if_neg (by omega), if_neg (by omega), if_neg (by omega), if_neg (by omega),
        if_neg (by omega), if_neg (by omega), if_neg (by omega)]
    refine ⟨⟨⟨aligned, ?_, ?_, ?_, ?_⟩, ⟨?_, ?_, ?_, ?_, ?_⟩, ?_⟩, sameStart, sameTotal, ?_⟩
    · rw [mem_, if_neg (by omega), if_neg (by omega), if_neg (by omega), if_neg (by omega),
        if_neg (by omega), if_neg (by omega), if_neg (by omega)]
      exact sits.magic
    · rw [mem_, if_neg (by omega), if_pos rfl]
    · rw [mem_, if_pos rfl]
      exact lower_half _ 0 (by decide)
    · rw [mem_, if_neg (by omega), if_neg (by omega), if_pos rfl, if_neg (List.cons_ne_nil _ _)]
    · dsimp only
      omega
    · dsimp only
      rw [mem_, if_neg (by omega), if_neg (by omega), if_neg (by omega), if_neg (by omega),
        if_neg (by omega), if_neg (by omega), if_pos rfl]
    · dsimp only
      rw [mem_, if_neg (by omega), if_neg (by omega), if_neg (by omega), if_neg (by omega),
        if_neg (by omega), if_pos rfl]
    · dsimp only
      rw [mem_, if_neg (by omega), if_neg (by omega), if_neg (by omega), if_neg (by omega),
        if_pos rfl, if_pos rfl]
      exact lower_half _ _ (by decide)
    · dsimp only
      rw [mem_, if_neg (by omega), if_neg (by omega), if_neg (by omega), if_pos rfl, sits.next]
      congr 1
      omega
    · have at_ : p + 32 + n + 32 + (b.size - n - 32) = p + 32 + b.size := by omega
      dsimp only
      rw [at_]
      exact rest.congr fun x low => other x (by omega)
    · exact fun x lt => other x (.inl lt)
  · have mem_ := mem_takeBlock_whole (h := h) (p := p) (n := n) (by omega) (by rw [sits.size]; omega)
    rw [if_neg split]
    refine ⟨⟨⟨aligned, ?_, ?_, ?_, ?_⟩, ?_⟩, sameStart, sameTotal, ?_⟩
    · rw [mem_, if_neg (by omega)]
      exact sits.magic
    · rw [mem_, if_neg (by omega)]
      exact sits.size
    · rw [mem_, if_pos rfl]
      exact lower_half _ 0 (by decide)
    · rw [mem_, if_neg (by omega)]
      exact sits.next
    · refine rest.congr fun x low => ?_
      rw [mem_, if_neg (by omega)]
    · intro x lt
      rw [mem_, if_neg (by omega)]

/-- The first block stays in front of the others. -/
theorem Chain.cons (chain : Chain h.mem p (b :: bs)) (frame : Frame h h' (p + 32 + b.size))
    (rest : Chain h'.mem (p + 32 + b.size) bs') (same : bs = [] ↔ bs' = []) :
    Chain h'.mem p (b :: bs') := by
  refine ⟨?_, rest⟩
  have kept := chain.1.congr fun x _ lt => frame.below x (by omega)
  rwa [if_congr same rfl rfl] at kept

theorem Frame.mono (frame : Frame h h' q) (le : p ≤ q) : Frame h h' p :=
  ⟨frame.heapStart, frame.heapTotal, fun x lt => frame.below x (by omega)⟩

/-- **First fit**: the loop of `kmalloc` does to the memory what `allocate` does to the
blocks. -/
theorem kmallocFrom_spec {fuel : Nat} (few : bs.length ≤ fuel) (chain : Chain h.mem p bs)
    (fits : Fits h p bs) (even : n % 8 = 0) :
    match allocate 32 32 n p bs with
    | none => kmallocFrom h n fuel (if bs = [] then 0 else p) = (h, 0)
    | some (a, bs') =>
      ∃ h', kmallocFrom h n fuel (if bs = [] then 0 else p) = (h', a + 32) ∧
        Chain h'.mem p bs' ∧ Frame h h' p := by
  induction bs generalizing p fuel with
  | nil =>
    rw [if_pos rfl]
    cases fuel with
    | zero => rfl
    | succ fuel => rfl
  | cons b bs ih =>
    cases fuel with
    | zero => cases few
    | succ fuel =>
      have sits := chain.1
      have nonzero : p ≠ 0 := by
        have := fits.start
        have := fits.low
        omega
      have valid : ¬(!heapHeaderValid h p || h.magic p ≠ heapMagic) = true := by
        simp [fits.valid_head sits.aligned, Heap.magic, sits.magic]
      have sizeEq : h.size p = b.size := sits.size
      have next : h.next p = if bs = [] then 0 else p + 32 + b.size := sits.next
      have freeIff : h.free p ≠ 0 ↔ b.free = true := by
        unfold Heap.free
        rw [sits.free]
        cases b.free with
        | true => simp
        | false => simp
      rw [if_neg (List.cons_ne_nil _ _), allocate, kmallocFrom, if_neg nonzero, if_neg valid, sizeEq, next,
        if_congr (and_congr_left' freeIff) rfl rfl]
      by_cases taken : b.free = true ∧ n ≤ b.size
      · rw [if_pos taken, if_pos taken]
        have below := fits.size_le
        have ptr : u64 (p + headerSize) = p + 32 := u64_eq (by unfold headerSize; omega)
        rw [ptr]
        exact ⟨_, rfl, takeBlock_spec chain fits taken.2 even⟩
      · rw [if_neg taken, if_neg taken]
        have rest := ih (Nat.le_of_succ_le_succ few) chain.2 fits.tail
        cases found : allocate 32 32 n (p + 32 + b.size) bs with
        | none =>
          rw [found] at rest
          exact rest
        | some r =>
          obtain ⟨a, bs'⟩ := r
          rw [found] at rest
          obtain ⟨h', eq, chain', frame⟩ := rest
          have nonempty := (allocated_of_eq found).ne_nil
          refine ⟨h', eq, chain.cons frame chain' ?_, frame.mono (by omega)⟩
          exact iff_of_false nonempty.1 nonempty.2

/-! ### Freeing -/

theorem Frame.trans (frame : Frame h h' p) {h'' : Heap} (frame' : Frame h' h'' p) :
    Frame h h'' p :=
  ⟨frame'.heapStart.trans frame.heapStart, frame'.heapTotal.trans frame.heapTotal,
    fun x lt => (frame'.below x lt).trans (frame.below x lt)⟩

/-- Other blocks of the same extent fit as well. -/
theorem Fits.congr (fits : Fits h p bs) (frame : Frame h h' q) (same : extent 32 bs' = extent 32 bs) :
    Fits h' p bs' := by
  have start := frame.heapStart
  have total := frame.heapTotal
  refine ⟨?_, ?_, ?_, ?_, ?_⟩
  · exact start ▸ fits.start
  · exact start ▸ fits.low
  · rw [same, start, total]
    exact fits.end_
  · rw [start, total]
    exact fits.high
  · exact total ▸ fits.total

/-- Two free neighbours become one. -/
theorem merge_spec (chain : Chain h.mem p (b :: c :: bs)) (fits : Fits h p (b :: c :: bs))
    (free : b.free = true) (h₁ h₂ : Heap)
    (first : h₁ = h.setSize p (u64 (h.size p + u64 (headerSize + h.size (h.next p)))))
    (second : h₂ = h₁.setNext p (h₁.next (h₁.next p))) :
    Chain h₂.mem p (⟨b.size + 32 + c.size, true⟩ :: bs) ∧ Frame h h₂ p := by
  obtain ⟨sits, sits', rest⟩ := chain
  have next : h.next p = p + 32 + b.size := sits.next
  have below := fits.tail.size_le
  have sum : u64 (h.size p + u64 (headerSize + h.size (h.next p))) = b.size + 32 + c.size := by
    rw [next]
    unfold Heap.size headerSize
    rw [sits.size, sits'.size, u64_eq (by omega : 32 + c.size < 2 ^ 64), u64_eq (by omega)]
    omega
  have mem₁ : ∀ x, h₁.mem x = if x = p + 8 then b.size + 32 + c.size else h.mem x := by
    intro x
    rw [first, Heap.setSize, mem_store, sum]
  have next₁ : h₁.next p = p + 32 + b.size := by
    rw [Heap.next, mem₁, if_neg (by omega)]
    exact sits.next
  have next₂ : h₁.next (p + 32 + b.size) = if bs = [] then 0 else p + 32 + b.size + 32 + c.size := by
    rw [Heap.next, mem₁, if_neg (by omega)]
    exact sits'.next
  have mem₂ : ∀ x, h₂.mem x =
      if x = p + 24 then (if bs = [] then 0 else p + 32 + b.size + 32 + c.size) else h₁.mem x := by
    intro x
    rw [second, Heap.setNext, mem_store, next₁, next₂]
  have at_ : p + 32 + (b.size + 32 + c.size) = p + 32 + b.size + 32 + c.size := by omega
  refine ⟨⟨⟨sits.aligned, ?_, ?_, ?_, ?_⟩, ?_⟩, ?_, ?_, ?_⟩
  · rw [mem₂, if_neg (by omega), mem₁, if_neg (by omega)]
    exact sits.magic
  · rw [mem₂, if_neg (by omega), mem₁, if_pos rfl]
  · rw [mem₂, if_neg (by omega), mem₁, if_neg (by omega), sits.free, free]
  · rw [mem₂, if_pos rfl, at_]
  · dsimp only
    rw [at_]
    refine rest.congr fun x low => ?_
    rw [mem₂, if_neg (by omega), mem₁, if_neg (by omega)]
  · rw [second, first]
    rfl
  · rw [second, first]
    rfl
  · intro x lt
    rw [mem₂, if_neg (by omega), mem₁, if_neg (by omega)]

/-- **Joining neighbours**: the loop of `coalesce` does to the memory what `coalesced`
does to the blocks. -/
theorem coalesceFrom_spec {fuel : Nat} (few : bs.length ≤ fuel) (chain : Chain h.mem p (b :: bs))
    (fits : Fits h p (b :: bs)) :
    Chain (coalesceFrom h fuel p).mem p (coalesced 32 (b :: bs)) ∧
    Frame h (coalesceFrom h fuel p) p := by
  induction fuel generalizing h p b bs with
  | zero =>
    obtain rfl := List.eq_nil_of_length_eq_zero (Nat.le_zero.mp few)
    exact ⟨chain, .refl h p⟩
  | succ fuel ih =>
    rw [coalesceFrom]
    cases bs with
    | nil =>
      have next : h.next p = 0 := chain.1.next
      rw [if_pos (.inr next)]
      exact ⟨chain, .refl h p⟩
    | cons c bs =>
      have sits := chain.1
      have sits' := chain.2.1
      have next : h.next p = p + 32 + b.size := sits.next
      have nonzero : p ≠ 0 := by
        have := fits.start
        have := fits.low
        omega
      have valid : ¬(!heapHeaderValid h p || !heapHeaderValid h (h.next p) ||
          h.magic p ≠ heapMagic || h.magic (h.next p) ≠ heapMagic) = true := by
        simp [next, fits.valid_head sits.aligned, fits.tail.valid_head sits'.aligned, Heap.magic,
          sits.magic, sits'.magic]
      have freeIff : h.free p ≠ 0 ∧ h.free (h.next p) ≠ 0 ↔ b.free = true ∧ c.free = true := by
        rw [next]
        unfold Heap.free
        rw [sits.free, sits'.free]
        cases b.free <;> cases c.free <;> simp
      have notEnd : ¬(p = 0 ∨ h.next p = 0) := by omega
      rw [if_neg notEnd, if_neg valid]
      by_cases both : b.free = true ∧ c.free = true
      · obtain ⟨chain', frame⟩ := merge_spec chain fits both.1 _ _ rfl rfl
        rw [if_pos (freeIff.mpr both), coalesced_joined both.1 both.2]
        obtain ⟨done, frame'⟩ := ih (Nat.le_of_succ_le_succ few) chain' (fits.congr frame (by
          simp only [extent]
          omega))
        exact ⟨done, frame.trans frame'⟩
      · rw [if_neg (fun h => both (freeIff.mp h)), coalesced_apart _ _ _ _ both, next]
        obtain ⟨chain', frame⟩ := ih (Nat.le_of_succ_le_succ few) chain.2 fits.tail
        refine ⟨chain.cons frame chain' ?_, frame.mono (by omega)⟩
        obtain ⟨d, rest, eq, -⟩ := coalesced_head 32 c bs
        rw [eq]
        exact iff_of_false (List.cons_ne_nil _ _) (List.cons_ne_nil _ _)

theorem mem_setFree (h : Heap) (a v x : Nat) :
    (h.setFree a v).mem x =
      if x = a + 16 then h.mem (a + 16) - h.mem (a + 16) % 2 ^ 32 + v else h.mem x :=
  mem_store ..

/-- Freeing a header does to the memory what `release` does to the blocks. -/
theorem chain_release (chain : Chain h.mem p bs) (mem_ : (a, b) ∈ places 32 p bs) :
    Chain (h.setFree a 1).mem p (release 32 a p bs) := by
  induction bs generalizing p with
  | nil => cases mem_
  | cons c bs ih =>
    obtain ⟨sits, rest⟩ := chain
    rcases List.mem_cons.mp mem_ with same | later
    · obtain ⟨rfl, rfl⟩ := Prod.mk.inj same
      rw [release, if_pos rfl]
      refine ⟨⟨sits.aligned, ?_, ?_, ?_, ?_⟩, rest.congr fun x low => ?_⟩
      · rw [mem_setFree, if_neg (by omega)]
        exact sits.magic
      · rw [mem_setFree, if_neg (by omega)]
        exact sits.size
      · rw [mem_setFree, if_pos rfl, if_pos rfl]
        exact lower_half _ _ (by decide)
      · rw [mem_setFree, if_neg (by omega)]
        exact sits.next
      · rw [mem_setFree, if_neg (by omega)]
    · have behind := (bounds_of_mem later).1
      rw [release, if_neg (by omega)]
      refine ⟨?_, ih rest later⟩
      have nilIff : bs = [] ↔ release 32 a (p + 32 + c.size) bs = [] := by
        rw [← List.length_eq_zero_iff, ← List.length_eq_zero_iff, length_release]
      have kept : Sits (h.setFree a 1).mem p c (if bs = [] then 0 else p + 32 + c.size) := by
        refine sits.congr fun x _ lt => ?_
        rw [mem_setFree, if_neg (by omega)]
      rwa [if_congr nilIff rfl rfl] at kept

/-- `kfree` frees the header it finds when that is the one of a taken block. -/
theorem kfree_found (chain : Chain h.mem h.heapStart bs) (fits : Fits h h.heapStart bs)
    (mem_ : (a, b) ∈ used 32 h.heapStart bs) {ptr : Nat} (low : a + 32 ≤ ptr)
    (high : ptr < a + 32 + b.size) (found : headerOf h ptr = some a) :
    kfree h ptr = coalesce (h.setFree a 1) := by
  obtain ⟨placed, taken⟩ := mem_used.mp mem_
  obtain ⟨q, sits⟩ := chain.sits placed
  obtain ⟨first, last⟩ := bounds_of_mem placed
  have start := fits.start
  have end_ := fits.end_
  have top := fits.high
  have valid : heapHeaderValid h a = true := fits.valid placed sits.aligned
  have free : h.free a = 0 := by
    unfold Heap.free
    rw [sits.free, taken]
    rfl
  have lower : u64 (h.heapStart + headerSize) = h.heapStart + 32 := u64_eq (by unfold headerSize; omega)
  have live : ¬(!heapHeaderValid h a || h.magic a ≠ heapMagic || h.free a ≠ 0) = true := by
    simp [valid, Heap.magic, sits.magic, free]
  unfold kfree
  rw [if_neg (by omega), lower, heapEnd_eq top, if_neg (by omega), found]
  exact if_neg live

/-- Where `headerOf` looks first for a pointer into a block. -/
theorem Fits.guess (fits : Fits h h.heapStart bs) (mem_ : (a, b) ∈ places 32 h.heapStart bs) {ptr : Nat}
    (even : ptr % 8 = 0) (low : a + 32 ≤ ptr) (high : ptr ≤ a + 32 + b.size) :
    sub64 ptr headerSize = ptr - 32 ∧ heapHeaderValid h (ptr - 32) = true := by
  obtain ⟨first, last⟩ := bounds_of_mem mem_
  have start := fits.start
  have end_ := fits.end_
  have top := fits.high
  refine ⟨sub64_eq (by unfold headerSize; omega) (by omega), ?_⟩
  unfold heapHeaderValid headerSize
  rw [heapEnd_eq top, sub64_eq (by omega) top, decide_eq_true_eq]
  omega

/-- The pointer that `kmalloc` returned leads to the header. -/
theorem headerOf_plain (chain : Chain h.mem h.heapStart bs) (fits : Fits h h.heapStart bs)
    (mem_ : (a, b) ∈ places 32 h.heapStart bs) : headerOf h (a + 32) = some a := by
  obtain ⟨q, sits⟩ := chain.sits mem_
  have even := sits.aligned
  obtain ⟨hdr, valid⟩ := fits.guess mem_ (by omega : (a + 32) % 8 = 0) (Nat.le_refl _) (by omega)
  rw [Nat.add_sub_cancel] at hdr valid
  have good : ¬(!heapHeaderValid h a || h.magic a ≠ heapMagic) = true := by
    simp [valid, Heap.magic, sits.magic]
  unfold headerOf
  rw [hdr, if_neg good]

/-- The pointer of a taken block leads `kfree` to its header. -/
theorem kfree_eq (chain : Chain h.mem h.heapStart bs) (fits : Fits h h.heapStart bs)
    (mem_ : (a, b) ∈ used 32 h.heapStart bs) (pos : 0 < b.size) :
    kfree h (a + 32) = coalesce (h.setFree a 1) :=
  kfree_found chain fits mem_ (Nat.le_refl _) (by omega) (headerOf_plain chain fits (mem_used.mp mem_).1)

end AtmKoala.Kmalloc
