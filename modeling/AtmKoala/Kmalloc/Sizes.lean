import AtmKoala.Kmalloc.Aligned

/-!
The sums that `kmalloc` and `kmalloc_aligned` compute from the size they are asked for.

None of them is checked. Rounding up wraps for the last seven sizes, and `kmalloc` then
takes the first free block whatever its size; `kmalloc_aligned` adds the alignment and the
room of a pointer before that, so it wraps earlier.

* `kmallocFrom_eq`: the loop takes the first free block that is large enough.
* `usable_of_leased`: what the invariant of `Aligned` says about one result.
* `kmalloc_sizes`: for which sizes the result is a null pointer or has room.
-/

namespace AtmKoala.Kmalloc

open Lib Aligned

/-! ### What is expected -/

/-- The heap is off or a row of blocks. -/
def WellFormed (h : Heap) : Prop := h.heapStart = 0 ∨ ∃ bs, Leased ⟨h, []⟩ bs

/-- There are `size` bytes behind `ptr`, inside the heap and inside one taken block. -/
structure Usable (h : Heap) (ptr size : Nat) : Prop where
  low : h.heapStart + headerSize ≤ ptr
  high : ptr + size ≤ h.heapStart + h.heapTotal + headerSize
  block : ∃ d, Block h d ∧ h.free d = 0 ∧ d + headerSize ≤ ptr ∧ ptr + size ≤ d + headerSize + h.size d

/-- A null pointer, or room for `size` bytes. -/
def Granted (r : Heap × Nat) (size : Nat) : Prop := r.2 = 0 ∨ Usable r.1 r.2 size

/-- A null pointer, or room for `size` bytes at an aligned address. -/
def GrantedAligned (r : Heap × Nat) (size alignment : Nat) : Prop :=
  r.2 = 0 ∨ r.2 % alignment = 0 ∧ Usable r.1 r.2 size

/-- The first of the blocks walked over that is free and has `n` bytes. -/
def firstFit (h : Heap) (n : Nat) : Option Nat :=
  (headers h heapWalkMax h.heapStart).find? fun p => h.free p ≠ 0 ∧ n ≤ h.size p

/-- Rounding up does not wrap, or there is no free block. -/
def Unwrapped (h : Heap) (size : Nat) : Prop := size + 7 < 2 ^ 64 ∨ firstFit h 0 = none

/-- No sum of `kmalloc_aligned` wraps; or what comes out is 0, or too much for every
block, or an address so high that rounding it up gives 0. -/
def UnwrappedAligned (h : Heap) (size alignment : Nat) : Prop :=
  if alignment ≤ 8 then Unwrapped h size
  else
    let total := u64 (u64 (size + alignment) + 8)
    size + alignment + 15 < 2 ^ 64 ∨ total = 0 ∨ firstFit h (align total 8) = none ∨
      ∃ a, firstFit h (align total 8) = some a ∧ 2 ^ 64 ≤ a + 39 + alignment

variable {h h' : Heap} {p a n fuel size alignment ptr : Nat} {bs : List Chunk}

/-! ### First fit -/

/-- The headers walked over are those of the blocks. -/
theorem placed_of_mem_headers (chain : Chain h.mem p bs)
    (mem_ : a ∈ headers h fuel (if bs = [] then 0 else p)) : ∃ b, (a, b) ∈ places 32 p bs := by
  induction fuel generalizing p bs with
  | zero => cases mem_
  | succ fuel ih =>
    cases bs with
    | nil => cases mem_
    | cons b bs =>
      rw [if_neg (List.cons_ne_nil _ _), headers] at mem_
      split at mem_
      · cases mem_
      · rcases List.mem_cons.mp mem_ with rfl | later
        · exact ⟨b, List.mem_cons_self⟩
        · have next : h.next p = if bs = [] then 0 else p + 32 + b.size := chain.1.next
          rw [next] at later
          obtain ⟨c, placed⟩ := ih chain.2 later
          exact ⟨c, List.mem_cons_of_mem _ placed⟩

/-- **First fit**: the loop of `kmalloc` takes the first block it walks over that is free
and large enough. -/
theorem kmallocFrom_eq (fuel : Nat) (chain : Chain h.mem p bs) (fits : Fits h p bs) :
    kmallocFrom h n fuel (if bs = [] then 0 else p) =
      match (headers h fuel (if bs = [] then 0 else p)).find? (fun q => h.free q ≠ 0 ∧ n ≤ h.size q) with
      | none => (h, 0)
      | some a => (takeBlock h a n, u64 (a + headerSize)) := by
  induction fuel generalizing p bs with
  | zero => rfl
  | succ fuel ih =>
    cases bs with
    | nil => rfl
    | cons b bs =>
      have sits := chain.1
      have nonzero : p ≠ 0 := by
        have := fits.start
        have := fits.low
        omega
      have valid : ¬(!heapHeaderValid h p || h.magic p ≠ heapMagic) = true := by
        simp [fits.valid_head sits.aligned, Heap.magic, sits.magic]
      have next : h.next p = if bs = [] then 0 else p + 32 + b.size := sits.next
      rw [if_neg (List.cons_ne_nil _ _), kmallocFrom, if_neg nonzero, if_neg valid, headers, if_neg nonzero,
        List.find?_cons, next]
      by_cases here : h.free p ≠ 0 ∧ n ≤ h.size p
      · rw [if_pos here, decide_eq_true here]
      · rw [if_neg here, decide_eq_false here]
        exact ih chain.2 fits.tail

/-- Where the first fit lies. -/
theorem firstFit_bound (leased : Leased ⟨h, []⟩ bs) (found : firstFit h n = some a) :
    0 < a ∧ a + 40 ≤ 2 ^ 64 := by
  have mem_ := List.mem_of_find?_eq_some found
  have start : (if bs = [] then 0 else h.heapStart) = h.heapStart := if_neg leased.nonempty
  rw [← start] at mem_
  obtain ⟨b, placed⟩ := placed_of_mem_headers leased.chain mem_
  obtain ⟨q, sits⟩ := leased.chain.sits placed
  obtain ⟨top, -⟩ := leased.fits.bound placed
  have aligned := sits.aligned
  have first := (bounds_of_mem placed).1
  have nonzero := leased.fits.start
  have high := leased.fits.high
  dsimp only at top first nonzero high
  omega

/-- What `kmalloc` returns. -/
theorem kmalloc_eq (leased : Leased ⟨h, []⟩ bs) (pos : size ≠ 0) :
    kmalloc h size =
      match firstFit h (align size 8) with
      | none => (h, 0)
      | some a => (takeBlock h a (align size 8), a + headerSize) := by
  have nonzero : ¬(h.heapStart = 0 ∨ size = 0) := not_or.mpr ⟨Nat.ne_of_gt leased.fits.start, pos⟩
  have start : (if bs = [] then 0 else h.heapStart) = h.heapStart := if_neg leased.nonempty
  have loop := kmallocFrom_eq (n := align size 8) heapWalkMax leased.chain leased.fits
  dsimp only at loop
  rw [start] at loop
  unfold kmalloc
  rw [if_neg nonzero, loop]
  change (match firstFit h (align size 8) with | none => _ | some a => _) = _
  cases found : firstFit h (align size 8) with
  | none => rfl
  | some a =>
    have bound := firstFit_bound leased found
    have ptr : u64 (a + headerSize) = a + headerSize := u64_eq (by unfold headerSize; omega)
    dsimp only
    rw [ptr]

/-- What the invariant says about a pointer that was returned. -/
theorem usable_of_leased {raw : Nat} (leased : Leased ⟨h, [⟨ptr, raw, size, alignment⟩]⟩ bs) :
    Usable h ptr size := by
  obtain ⟨a, b, taken, held⟩ := leased.held _ List.mem_cons_self
  obtain ⟨block, free⟩ := (taken_iff leased.chain leased.fits.start leased.nonempty a).mpr ⟨b, taken⟩
  have placed := (mem_used.mp taken).1
  obtain ⟨q, sits⟩ := leased.chain.sits placed
  obtain ⟨top, -⟩ := leased.fits.bound placed
  have first := (bounds_of_mem placed).1
  have bodySize : h.size a = b.size := sits.size
  have front := held.raw
  have low := held.low
  have enough := held.enough
  dsimp only at top first front low enough
  refine ⟨?_, ?_, a, block, free, ?_, ?_⟩
  all_goals unfold headerSize; omega

/-- A heap has less than 4 GiB, so a huge request does not fit. -/
theorem Usable.small (usable : Usable h ptr size) (total : h.heapTotal < 2 ^ 32) : size < 2 ^ 32 := by
  have low := usable.low
  have high := usable.high
  omega

/-! ### `kmalloc` -/

theorem kmalloc_off (off : h.heapStart = 0) (size : Nat) : kmalloc h size = (h, 0) := if_pos (.inl off)

theorem firstFit_off (off : h.heapStart = 0) (n : Nat) : firstFit h n = none := by
  unfold firstFit
  rw [off]
  rfl

/-- Without a wrap there is room, at an address that 8 divides. -/
theorem kmalloc_granted (leased : Leased ⟨h, []⟩ bs) (unwrapped : size + 7 < 2 ^ 64) :
    GrantedAligned (kmalloc h size) size 8 := by
  obtain ⟨s, cs, ran, leased', -⟩ := leased.kmalloc_ unwrapped
  cases eq : kmalloc h size with
  | mk h' ptr =>
    rw [Leased.perform_kmalloc eq] at ran
    by_cases null : ptr = 0
    · exact .inl null
    · obtain rfl := Option.some.inj ran
      rw [if_neg null] at leased'
      obtain ⟨a, b, -, held⟩ := leased'.held _ List.mem_cons_self
      exact .inr ⟨held.even, usable_of_leased leased'⟩

/-- **Rounding up**: `kmalloc` has room for what it grants unless it wraps and there is a
free block. -/
theorem kmalloc_granted_iff (wellFormed : WellFormed h) (size_lt : size < 2 ^ 64)
    (divides : alignment ∣ 8) :
    GrantedAligned (kmalloc h size) size alignment ↔ Unwrapped h size := by
  rcases wellFormed with off | ⟨bs, leased⟩
  · exact iff_of_true (.inl (congrArg Prod.snd (kmalloc_off off size))) (.inr (firstFit_off off 0))
  · by_cases unwrapped : size + 7 < 2 ^ 64
    · refine iff_of_true ?_ (.inl unwrapped)
      rcases kmalloc_granted leased unwrapped with null | ⟨even, usable⟩
      · exact .inl null
      · exact .inr ⟨Nat.mod_eq_zero_of_dvd (Nat.dvd_trans divides (Nat.dvd_of_mod_eq_zero even)), usable⟩
    · have rounded : align size 8 = 0 := by
        unfold align u64
        omega
      have eq := kmalloc_eq leased (by omega : size ≠ 0)
      rw [rounded] at eq
      cases found : firstFit h 0 with
      | none =>
        rw [found] at eq
        exact iff_of_true (.inl (congrArg Prod.snd eq)) (.inr found)
      | some a =>
        rw [found] at eq
        refine iff_of_false ?_ ?_
        · rw [eq]
          rintro (null | ⟨-, usable⟩)
          · have null : a + headerSize = 0 := null
            have := firstFit_bound leased found
            omega
          · have total : (takeBlock h a 0).heapTotal = h.heapTotal := (takeBlock_statics h a 0).2
            have small := usable.small (total ▸ leased.fits.total)
            omega
        · rintro (fits | none_)
          · exact unwrapped fits
          · exact nomatch found.symm.trans none_

/-! ### `kmalloc_aligned` -/

theorem kmallocAligned_null (over_ : 8 < alignment)
    (null : (kmalloc h (u64 (u64 (size + alignment) + 8))).2 = 0) :
    (kmallocAligned h size alignment).2 = 0 := by
  unfold kmallocAligned
  rw [if_neg (by omega)]
  dsimp only
  rw [if_pos null]

/-- The pointer is rounded up from the one `kmalloc` returned. -/
theorem kmallocAligned_some (over_ : 8 < alignment) {raw : Nat}
    (eq : kmalloc h (u64 (u64 (size + alignment) + 8)) = (h', raw)) (nonzero : raw ≠ 0) :
    (kmallocAligned h size alignment).2 = align (u64 (raw + 8)) alignment ∧
    (kmallocAligned h size alignment).1.heapTotal = h'.heapTotal := by
  unfold kmallocAligned
  rw [if_neg (by omega)]
  dsimp only
  rw [eq, if_neg nonzero]
  exact ⟨rfl, rfl⟩

theorem kmallocAligned_granted (leased : Leased ⟨h, []⟩ bs)
    (power : 2 ^ alignment.log2 = alignment) (over_ : 8 < alignment)
    (unwrapped : size + alignment + 15 < 2 ^ 64) :
    GrantedAligned (kmallocAligned h size alignment) size alignment := by
  obtain ⟨s, cs, ran, leased', -⟩ := leased.kmallocAligned_ unwrapped power
  by_cases null : (kmallocAligned h size alignment).2 = 0
  · exact .inl null
  · have room : Usable (kmallocAligned h size alignment).1 (kmallocAligned h size alignment).2 size := by
      cases eq : kmallocAligned h size alignment with
      | mk h' ptr =>
        rw [eq] at null
        rw [Leased.perform_kmallocAligned eq] at ran
        obtain rfl := Option.some.inj ran
        rw [if_neg null] at leased'
        exact usable_of_leased leased'
    refine .inr ⟨?_, room⟩
    by_cases raw : (kmalloc h (u64 (u64 (size + alignment) + 8))).2 = 0
    · exact absurd (kmallocAligned_null over_ raw) null
    · rw [(kmallocAligned_some over_ rfl raw).1]
      exact Nat.mul_mod_left ..

/-- Rounding up past the last address gives 0. -/
theorem align_wrapped (below : a + 40 ≤ 2 ^ 64) (alignment_le : alignment ≤ 2 ^ 63)
    (top : 2 ^ 64 ≤ a + 39 + alignment) : align (u64 (a + 40)) alignment = 0 := by
  have less : u64 (u64 (a + 40) + alignment - 1) < alignment := by
    unfold u64
    omega
  unfold align
  rw [Nat.div_eq_of_lt less, Nat.zero_mul]

/-- **All sums of `kmalloc_aligned`.** -/
theorem kmallocAligned_granted_iff (wellFormed : WellFormed h) (size_lt : size < 2 ^ 64)
    (power : 2 ^ alignment.log2 = alignment) (alignment_le : alignment ≤ 2 ^ 63) (over_ : 8 < alignment) :
    GrantedAligned (kmallocAligned h size alignment) size alignment ↔
      UnwrappedAligned h size alignment := by
  unfold UnwrappedAligned
  rw [if_neg (by omega)]
  dsimp only
  generalize total : u64 (u64 (size + alignment) + 8) = t
  rcases wellFormed with off | ⟨bs, leased⟩
  · refine iff_of_true (.inl (kmallocAligned_null over_ ?_)) (.inr (.inr (.inl (firstFit_off off _))))
    exact congrArg Prod.snd (kmalloc_off off _)
  · by_cases unwrapped : size + alignment + 15 < 2 ^ 64
    · exact iff_of_true (kmallocAligned_granted leased power over_ unwrapped) (.inl unwrapped)
    · by_cases zero : t = 0
      · refine iff_of_true (.inl (kmallocAligned_null over_ ?_)) (.inr (.inl zero))
        rw [total, zero]
        exact congrArg Prod.snd (if_pos (.inr rfl) : kmalloc h 0 = (h, 0))
      · have eq := kmalloc_eq leased zero
        rw [← total] at eq
        cases found : firstFit h (align t 8) with
        | none =>
          rw [total, found] at eq
          refine iff_of_true (.inl (kmallocAligned_null over_ ?_)) (.inr (.inr (.inl rfl)))
          rw [total]
          exact congrArg Prod.snd eq
        | some a =>
          obtain ⟨pos, below⟩ := firstFit_bound leased found
          rw [total, found] at eq
          have served : kmalloc h (u64 (u64 (size + alignment) + 8)) =
              (takeBlock h a (align t 8), a + headerSize) := by
            rw [total]
            exact eq
          obtain ⟨ptr, heapTotal⟩ := kmallocAligned_some over_ served (by unfold headerSize; omega)
          rw [(takeBlock_statics h a (align t 8)).2] at heapTotal
          have raw : a + headerSize + 8 = a + 40 := rfl
          rw [raw] at ptr
          by_cases top : 2 ^ 64 ≤ a + 39 + alignment
          · refine iff_of_true (.inl (ptr.trans ?_)) (.inr (.inr (.inr ⟨a, rfl, top⟩)))
            exact align_wrapped below alignment_le top
          · obtain ⟨low, -, -⟩ := Leased.align_bounds (a := a + 40) power over_ (by omega)
            rw [u64_eq (by omega)] at ptr
            refine iff_of_false ?_ ?_
            · rintro (null | ⟨-, usable⟩)
              · omega
              · have small := usable.small (heapTotal ▸ leased.fits.total)
                omega
            · rintro (fits | null | none_ | ⟨d, same, high⟩)
              · exact unwrapped fits
              · exact zero null
              · cases none_
              · obtain rfl := Option.some.inj same
                exact top high

/-! ### Every request -/

/-- **Sizes**: for every heap, size and power of two, `kmalloc` and `kmalloc_aligned` return
null or a pointer with room exactly if their sums do not wrap, or wrap to what no block can
serve. -/
theorem kmalloc_sizes (h : Heap) (wellFormed : WellFormed h) (size k : Nat) (size_lt : size < 2 ^ 64)
    (k_lt : k < 64) :
    (Granted (kmalloc h size) size ↔ Unwrapped h size) ∧
    (GrantedAligned (kmallocAligned h size (2 ^ k)) size (2 ^ k) ↔ UnwrappedAligned h size (2 ^ k)) := by
  refine ⟨?_, ?_⟩
  · rw [← kmalloc_granted_iff wellFormed size_lt (by decide : 1 ∣ 8)]
    unfold Granted GrantedAligned
    rw [and_iff_right (Nat.mod_one _)]
  · by_cases over_ : 8 < 2 ^ k
    · have power : 2 ^ (2 ^ k).log2 = 2 ^ k := by rw [Nat.log2_two_pow]
      exact kmallocAligned_granted_iff wellFormed size_lt power
        (Nat.pow_le_pow_right (by decide) (by omega)) over_
    · have same : kmallocAligned h size (2 ^ k) = kmalloc h size := if_pos (by omega)
      have condition : UnwrappedAligned h size (2 ^ k) = Unwrapped h size := if_pos (by omega)
      have divides : 2 ^ k ∣ 2 ^ 3 := by
        refine Nat.pow_dvd_pow 2 ?_
        by_contra more
        exact over_ (Nat.pow_lt_pow_right Nat.one_lt_two (by omega : 3 < k))
      rw [same, condition]
      exact kmalloc_granted_iff wellFormed size_lt divides

/-- Two requests that fit into the heap that `heap_init` makes. -/
theorem kmalloc_sizes_fresh :
    Granted (kmalloc (heapInit (statics fun _ => 0) 4096 1024) 100) 100 ∧
    GrantedAligned (kmallocAligned (heapInit (statics fun _ => 0) 4096 1024) 100 64) 100 64 := by
  obtain ⟨n, sound, -⟩ := heapInit_sound (fun _ => 0) (by decide : 1024 < 2 ^ 32)
    (by decide : 4096 + 1024 < 2 ^ 64) (by decide) (by decide)
  have granted := kmalloc_sizes _ (.inr ⟨_, leased_of_sound sound⟩) 100 6 (by decide) (by decide)
  have unwrapped : UnwrappedAligned (heapInit (statics fun _ => 0) 4096 1024) 100 (2 ^ 6) := .inl (by decide)
  exact ⟨granted.1.mpr (.inl (by decide)), granted.2.mpr unwrapped⟩

/-- A request for all addresses but one gets the block of 992 bytes that `heap_init` makes. -/
theorem kmalloc_wraps :
    WellFormed (heapInit (statics fun _ => 0) 4096 1024) ∧
    (kmalloc (heapInit (statics fun _ => 0) 4096 1024) (2 ^ 64 - 1)).2 = 4128 ∧
    ¬Granted (kmalloc (heapInit (statics fun _ => 0) 4096 1024) (2 ^ 64 - 1)) (2 ^ 64 - 1) := by
  obtain ⟨n, sound, -⟩ := heapInit_sound (fun _ => 0) (by decide : 1024 < 2 ^ 32)
    (by decide : 4096 + 1024 < 2 ^ 64) (by decide) (by decide)
  have ptr : (kmalloc (heapInit (statics fun _ => 0) 4096 1024) (2 ^ 64 - 1)).2 = 4128 := by decide
  have total : (kmalloc (heapInit (statics fun _ => 0) 4096 1024) (2 ^ 64 - 1)).1.heapTotal < 2 ^ 32 := by
    decide
  refine ⟨.inr ⟨_, leased_of_sound sound⟩, ptr, ?_⟩
  rintro (null | usable)
  · exact absurd (ptr.symm.trans null) (by decide)
  · exact absurd (usable.small total) (by decide)

end AtmKoala.Kmalloc
