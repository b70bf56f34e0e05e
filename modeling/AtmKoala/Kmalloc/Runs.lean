import AtmKoala.Lib.Run
import AtmKoala.Kmalloc.Heap

/-!
The heap over a whole run.

* `Sound` is the invariant: the blocks fill the heap, no two free ones are
  neighbours, and the live allocations are the blocks that are taken. Each step keeps
  it (`Sound.step`).
* `run_tiled`: what it says of the memory.
-/

namespace AtmKoala.Kmalloc

open Lib

variable {h : Heap} {p q a : Nat} {b : Chunk} {bs : List Chunk}

/-! ### Walking the headers -/

theorem Chain.linked (chain : Chain h.mem p bs) (pos : 0 < p) :
    Linked h (if bs = [] then 0 else p) ((places 32 p bs).map Prod.fst) := by
  induction bs generalizing p with
  | nil => exact .nil
  | cons b bs ih =>
    have next : h.next p = if bs = [] then 0 else p + 32 + b.size := chain.1.next
    rw [if_neg (List.cons_ne_nil _ _)]
    refine .cons (by omega) ?_
    rw [next]
    exact ih chain.2 (by omega)

theorem length_places (hdr p : Nat) (bs : List Chunk) : (places hdr p bs).length = bs.length := by
  induction bs generalizing p with
  | nil => rfl
  | cons b bs ih => simp only [places, List.length_cons, ih]

theorem Linked.length_headers {ps : List Nat} (linked : Linked h p ps) (fuel : Nat) :
    (headers h fuel p).length = min fuel ps.length := by
  induction fuel generalizing p ps with
  | zero => simp [headers]
  | succ fuel ih =>
    cases linked with
    | nil => simp [headers]
    | cons nonzero rest =>
      rw [headers, if_neg nonzero, List.length_cons, List.length_cons, ih rest]
      omega

theorem Chain.tiles (chain : Chain h.mem p bs) :
    ((places 32 p bs).map Prod.fst ++ [p + extent 32 bs]).IsChain
      fun p q => p + headerSize + h.size p = q := by
  induction bs generalizing p with
  | nil => exact List.isChain_singleton _
  | cons b bs ih =>
    have size : h.size p = b.size := chain.1.size
    have whole : extent 32 (b :: bs) = 32 + b.size + extent 32 bs := rfl
    have at_ : p + extent 32 (b :: bs) = p + 32 + b.size + extent 32 bs := by omega
    rw [at_]
    have rest := ih chain.2
    cases bs with
    | nil => exact List.isChain_cons_cons.mpr ⟨by rw [size]; rfl, rest⟩
    | cons c bs => exact List.isChain_cons_cons.mpr ⟨by rw [size]; rfl, rest⟩

theorem Sits.free_eq_zero (sits : Sits h.mem p b q) : h.free p = 0 ↔ b.free = false := by
  unfold Heap.free
  rw [sits.free]
  cases b.free with
  | true => simp
  | false => simp

theorem Chain.apart (chain : Chain h.mem p bs) (apart : Apart bs) :
    ((places 32 p bs).map Prod.fst).IsChain fun p q => h.free p = 0 ∨ h.free q = 0 := by
  unfold Apart at apart
  induction bs generalizing p with
  | nil => exact .nil
  | cons b bs ih =>
    cases bs with
    | nil => exact List.isChain_singleton _
    | cons c bs =>
      rw [List.isChain_cons_cons] at apart
      refine List.isChain_cons_cons.mpr ⟨?_, ih chain.2 apart.2⟩
      exact apart.1.imp chain.1.free_eq_zero.mpr chain.2.1.free_eq_zero.mpr

/-! ### Every run -/

/-- What holds of the heap and the allocations in every state reached. -/
structure Sound (s : State) (bs : List Chunk) : Prop where
  nonempty : bs ≠ []
  chain : Chain s.heap.mem s.heap.heapStart bs
  fits : Fits s.heap s.heap.heapStart bs
  apart : Apart bs
  live : (s.live.map Prod.fst).Perm ((used 32 s.heap.heapStart bs).map fun u => u.1 + 32)
  room : ∀ x ∈ s.live, ∃ a b, x.1 = a + 32 ∧ (a, b) ∈ used 32 s.heap.heapStart bs ∧
    0 < x.2 ∧ x.2 ≤ b.size

namespace Sound

variable {s s' : State}

theorem few_iff (sound : Sound s bs) : Few s.heap ↔ bs.length < heapWalkMax := by
  have linked := sound.chain.linked sound.fits.start
  rw [if_neg sound.nonempty] at linked
  unfold Few
  rw [linked.length_headers, List.length_map, length_places]
  omega

theorem heapStart_ne (sound : Sound s bs) : s.heap.heapStart ≠ 0 := Nat.ne_of_gt sound.fits.start

theorem nodup (sound : Sound s bs) : (s.live.map Prod.fst).Nodup := by
  refine sound.live.nodup_iff.mpr (List.pairwise_map.mpr ?_)
  have apart := used_nodup (by decide : 0 < 32) s.heap.heapStart bs
  refine (List.pairwise_map.mp apart).imp fun {x y} differ => ?_
  omega

theorem perform_kmalloc {size ptr : Nat} (eq : kmalloc s.heap size = (h, ptr)) :
    perform s (.kmalloc size) = some ⟨h, if ptr = 0 then s.live else (ptr, size) :: s.live⟩ := by
  simp only [perform, eq]

/-- `kmalloc` takes a free block or fails. -/
theorem kmalloc_ (sound : Sound s bs) {size : Nat} (le : size ≤ 2 ^ 63) (few : Few s.heap) :
    ∃ s' bs', perform s (.kmalloc size) = some s' ∧ Sound s' bs' ∧
      Frame s.heap s'.heap s.heap.heapStart := by
  by_cases zero : size = 0
  · have eq : kmalloc s.heap size = (s.heap, 0) := if_pos (.inr zero)
    exact ⟨_, bs, perform_kmalloc eq, sound, .refl _ _⟩
  · have eq : kmalloc s.heap size = kmallocFrom s.heap (align size 8) heapWalkMax s.heap.heapStart :=
      if_neg fun h => h.elim sound.heapStart_ne zero
    have rounded : align size 8 = (size + 7) / 8 * 8 := by
      unfold align
      rw [u64_eq (by omega : size + 8 - 1 < 2 ^ 64)]
      omega
    have even : align size 8 % 8 = 0 := by omega
    have done := kmallocFrom_spec (sound.few_iff.mp few).le sound.chain sound.fits even
    rw [if_neg sound.nonempty, ← eq] at done
    cases found : allocate 32 32 (align size 8) s.heap.heapStart bs with
    | none =>
      rw [found] at done
      exact ⟨_, bs, perform_kmalloc done, sound, .refl _ _⟩
    | some r =>
      obtain ⟨a, bs'⟩ := r
      rw [found] at done
      obtain ⟨h', ran, chain, frame⟩ := done
      have taken := allocated_of_eq found
      obtain ⟨c, large, perm⟩ := taken.used
      refine ⟨_, bs', perform_kmalloc ran, ⟨taken.ne_nil.2, ?_, ?_, taken.apart sound.apart, ?_, ?_⟩, frame⟩
      · rw [frame.heapStart]
        exact chain
      · rw [frame.heapStart]
        exact sound.fits.congr frame taken.extent
      · rw [frame.heapStart, if_neg (by omega)]
        exact (sound.live.cons _).trans (perm.map fun u : Nat × Chunk => u.1 + 32).symm
      · rw [frame.heapStart, if_neg (by omega)]
        refine List.forall_mem_cons.mpr ⟨⟨a, c, rfl, perm.mem_iff.mpr List.mem_cons_self, ?_, ?_⟩, ?_⟩
        · exact Nat.pos_of_ne_zero zero
        · show size ≤ c.size
          omega
        · intro x mem_
          obtain ⟨a', b, eq, taken', pos, le⟩ := sound.room x mem_
          exact ⟨a', b, eq, perm.mem_iff.mpr (List.mem_cons_of_mem _ taken'), pos, le⟩

/-- `kfree` of a live pointer gives its block back. -/
theorem kfree_ (sound : Sound s bs) {ptr : Nat} (live : ∃ x ∈ s.live, x.1 = ptr) (few : Few s.heap) :
    ∃ s' bs', perform s (.kfree ptr) = some s' ∧ Sound s' bs' ∧
      Frame s.heap s'.heap s.heap.heapStart ∧ bs'.length ≤ bs.length ∧
      s'.live.map Prod.fst = (s.live.map Prod.fst).erase ptr := by
  obtain ⟨x, mem_, rfl⟩ := live
  obtain ⟨a, b, eq, taken, pos, le⟩ := sound.room x mem_
  have placed := (mem_used.mp taken).1
  have ran : kfree s.heap x.1 = coalesceFrom (s.heap.setFree a 1) heapWalkMax s.heap.heapStart := by
    rw [eq]
    exact kfree_eq sound.chain sound.fits taken (by omega)
  have erased : (s.live.eraseP fun y => y.1 = x.1).map Prod.fst = (s.live.map Prod.fst).erase x.1 := by
    rw [List.erase_eq_eraseP, List.eraseP_map]
    congr 2
    funext y
    exact decide_eq_decide.mpr eq_comm
  have released := chain_release sound.chain placed
  have length := length_release 32 a s.heap.heapStart bs
  have perm := used_release (by decide) taken
  have flagged : Frame s.heap (s.heap.setFree a 1) s.heap.heapStart := by
    refine ⟨rfl, rfl, fun y lt => ?_⟩
    have low := (bounds_of_mem placed).1
    rw [mem_setFree, if_neg (by omega)]
  have fits := sound.fits.congr flagged (extent_release 32 a s.heap.heapStart bs)
  have bound := sound.few_iff.mp few
  generalize release 32 a s.heap.heapStart bs = cs at released length perm fits
  cases cs with
  | nil => exact absurd (List.eq_nil_of_length_eq_zero length.symm) sound.nonempty
  | cons c cs =>
    have count : cs.length ≤ heapWalkMax := by
      rw [List.length_cons] at length
      omega
    obtain ⟨chain, frame⟩ := coalesceFrom_spec count released fits
    rw [← ran] at chain frame
    have whole := flagged.trans frame
    have shorter := length_coalesced_le 32 (c :: cs)
    refine ⟨⟨kfree s.heap x.1, s.live.eraseP fun y => y.1 = x.1⟩, coalesced 32 (c :: cs), rfl,
      ⟨?_, ?_, ?_, apart_coalesced .., ?_, ?_⟩, whole, by omega, erased⟩
    · obtain ⟨d, rest, eq, -⟩ := coalesced_head 32 c cs
      rw [eq]
      exact List.cons_ne_nil _ _
    · rw [whole.heapStart]
      exact chain
    · rw [whole.heapStart]
      exact fits.congr frame (extent_coalesced ..)
    · rw [whole.heapStart, used_coalesced, erased, eq]
      have before := sound.live.trans (perm.map fun u : Nat × Chunk => u.1 + 32)
      rw [List.map_cons] at before
      exact (before.erase (a + 32)).trans (by rw [List.erase_cons_head])
    · intro y left
      have still := List.mem_of_mem_eraseP left
      obtain ⟨a', b', eq', taken', pos', le'⟩ := sound.room y still
      rw [whole.heapStart, used_coalesced]
      refine ⟨a', b', eq', ?_, pos', le'⟩
      rcases List.mem_cons.mp (perm.mem_iff.mp taken') with same | other
      · have gone : y.1 ∉ (s.live.map Prod.fst).erase x.1 := by
          rw [eq', eq, (Prod.mk.inj same).1]
          exact sound.nodup.not_mem_erase
        rw [← erased] at gone
        exact absurd (List.mem_map_of_mem left) gone
      · exact other

/-- Users write between the headers. -/
theorem write_ (sound : Sound s bs) {a : Nat} (v : Nat) (even : a % 8 = 0)
    (owned : ∃ x ∈ s.live, x.1 ≤ a ∧ a < x.1 + x.2) : Sound ⟨s.heap.store a v, s.live⟩ bs := by
  obtain ⟨x, mem_, low, high⟩ := owned
  obtain ⟨d, b, eq, taken, -, le⟩ := sound.room x mem_
  have placed := (mem_used.mp taken).1
  refine ⟨sound.nonempty, ?_, ⟨sound.fits.start, sound.fits.low, sound.fits.end_, sound.fits.high,
    sound.fits.total⟩, sound.apart, sound.live, sound.room⟩
  refine sound.chain.agree fun y mem' z left right => ?_
  show (s.heap.store a v).mem z = s.heap.mem z
  rw [mem_store, if_neg]
  rintro rfl
  rcases places_apart placed (c := y.2) (d := y.1) mem' with same | before | behind
  · have := (Prod.mk.inj same).1
    omega
  · omega
  · omega

/-- One step of the heap or its users. -/
theorem step (sound : Sound s bs) {op : Op} (proper : Proper s op) (taken : Step s op s') :
    ∃ bs', Sound s' bs' ∧ s'.heap.heapStart = s.heap.heapStart ∧
      s'.heap.heapTotal = s.heap.heapTotal := by
  cases op with
  | kmalloc size =>
    obtain ⟨t, bs', done, sound', frame⟩ := sound.kmalloc_ proper.1 proper.2
    obtain rfl := Option.some.inj (done.symm.trans taken)
    exact ⟨bs', sound', frame.heapStart, frame.heapTotal⟩
  | kfree ptr =>
    obtain ⟨t, bs', done, sound', frame, -, -⟩ := sound.kfree_ proper.1 proper.2
    obtain rfl := Option.some.inj (done.symm.trans taken)
    exact ⟨bs', sound', frame.heapStart, frame.heapTotal⟩
  | write a v =>
    obtain rfl := Option.some.inj taken
    exact ⟨bs, sound.write_ v proper.1 proper.2, rfl, rfl⟩

theorem tiled (sound : Sound s bs) :
    Tiled s.heap (s.heap.heapStart + s.heap.heapTotal + 32) := by
  have linked := sound.chain.linked sound.fits.start
  have tiles := sound.chain.tiles
  rw [if_neg sound.nonempty] at linked
  rw [sound.fits.end_] at tiles
  exact ⟨_, linked, tiles, sound.chain.apart sound.apart⟩

/-- A live allocation is the body of a block. -/
theorem body (sound : Sound s bs) {x : Nat × Nat} (mem_ : x ∈ s.live) :
    ∃ a b, (a, b) ∈ used 32 s.heap.heapStart bs ∧ x.1 = a + 32 ∧ x.1 % 8 = 0 ∧
      s.heap.room x.1 = b.size ∧ x.2 ≤ b.size := by
  obtain ⟨a, b, eq, taken, -, le⟩ := sound.room x mem_
  obtain ⟨q, sits⟩ := sound.chain.sits (mem_used.mp taken).1
  have aligned := sits.aligned
  refine ⟨a, b, taken, eq, by omega, ?_, le⟩
  have header : x.1 - headerSize = a := by
    unfold headerSize
    omega
  rw [Heap.room, header]
  exact sits.size

theorem served (sound : Sound s bs) : Served s (s.heap.heapStart + s.heap.heapTotal + 32) where
  disjoint := by
    refine (List.pairwise_map.mp sound.nodup).imp_of_mem fun {x y} left right differ => ?_
    obtain ⟨a, b, taken, eq, -, room, -⟩ := sound.body left
    obtain ⟨d, c, taken', eq', -, room', -⟩ := sound.body right
    rw [room, room']
    rcases places_apart (mem_used.mp taken).1 (mem_used.mp taken').1 with same | before | behind
    · have := (Prod.mk.inj same).1
      omega
    · omega
    · omega
  aligned x mem_ := by
    obtain ⟨a, b, -, -, aligned, -, -⟩ := sound.body mem_
    exact aligned
  inside x mem_ := by
    obtain ⟨a, b, taken, eq, -, room, -⟩ := sound.body mem_
    obtain ⟨low, high⟩ := bounds_of_mem (mem_used.mp taken).1
    have end_ := sound.fits.end_
    rw [room]
    unfold headerSize
    omega
  enough x mem_ := by
    obtain ⟨a, b, -, -, -, room, le⟩ := sound.body mem_
    rw [room]
    exact le

/-- With nothing taken the heap is one free block. -/
theorem single (sound : Sound s bs) (none_ : s.live = []) : Single s.heap s.heap.heapTotal := by
  have empty : used 32 s.heap.heapStart bs = [] := by
    have perm := sound.live
    rw [none_] at perm
    exact List.map_eq_nil_iff.mp perm.symm.eq_nil
  obtain ⟨n, rfl⟩ := sound.apart.eq_single empty sound.nonempty
  have linked := sound.chain.linked sound.fits.start
  have sits := sound.chain.1
  have end_ := sound.fits.end_
  have whole : extent 32 [⟨n, true⟩] = 32 + n := rfl
  have size : s.heap.size s.heap.heapStart = n := sits.size
  have free : s.heap.free s.heap.heapStart = 1 := sits.free
  refine ⟨linked, by omega, ?_⟩
  rw [size]
  omega

/-- Everything live can be freed, in any order. -/
theorem free_all (sound : Sound s bs) (few : Few s.heap) {ptrs : List Nat}
    (perm : ptrs.Perm (s.live.map Prod.fst)) :
    ∃ t, Run Step Proper s (ptrs.map .kfree) t ∧ t.live = [] ∧ Single t.heap s.heap.heapTotal := by
  induction ptrs generalizing s bs with
  | nil =>
    have none_ : s.live = [] := List.map_eq_nil_iff.mp perm.symm.eq_nil
    exact ⟨s, .nil s, none_, sound.single none_⟩
  | cons ptr ptrs ih =>
    have live : ∃ x ∈ s.live, x.1 = ptr := List.mem_map.mp (perm.mem_iff.mp List.mem_cons_self)
    obtain ⟨s', bs', done, sound', frame, shorter, erased⟩ := sound.kfree_ live few
    have few' : Few s'.heap := by
      rw [sound'.few_iff]
      have := sound.few_iff.mp few
      omega
    have perm' : ptrs.Perm (s'.live.map Prod.fst) := by
      rw [erased]
      have := perm.erase ptr
      rwa [List.erase_cons_head] at this
    obtain ⟨t, run, none_, single⟩ := ih sound' few' perm'
    rw [frame.heapTotal] at single
    exact ⟨t, .cons ⟨live, few⟩ done run, none_, single⟩

end Sound

/-- `heap_init` makes one free block of the region. -/
theorem heapInit_eq (mem : Nat → Nat) {start size : Nat} (small : size < 2 ^ 32)
    (inside : start + size < 2 ^ 64) (big : ¬size < 48) :
    ∃ a n, a = (start + 15) / 16 * 16 ∧ a + 32 + n = start + size ∧
      heapInit (statics mem) start size =
        { ((((⟨mem, a, 0⟩ : Heap).setMagic a heapMagic).setSize a n).setFree a 1).setNext a 0 with
          heapTotal := n } := by
  have aligned : align start 16 = (start + 15) / 16 * 16 := by
    unfold align
    rw [u64_eq (by omega : start + 16 - 1 < 2 ^ 64)]
    rfl
  have pad : sub64 (align start 16) start = (start + 15) / 16 * 16 - start := by
    rw [aligned, sub64_eq (by omega) (by omega)]
  have rest : sub64 (sub64 size (sub64 (align start 16) start)) headerSize =
      size - ((start + 15) / 16 * 16 - start) - 32 := by
    unfold headerSize
    rw [pad, sub64_eq (by omega : (start + 15) / 16 * 16 - start ≤ size) (by omega),
      sub64_eq (by omega) (by omega)]
  have below : size - ((start + 15) / 16 * 16 - start) - 32 < 2 ^ 32 := by omega
  refine ⟨_, size - ((start + 15) / 16 * 16 - start) - 32, rfl, by omega, ?_⟩
  generalize size - ((start + 15) / 16 * 16 - start) - 32 = n at rest below
  have total : (((((⟨mem, (start + 15) / 16 * 16, 0⟩ : Heap).setMagic ((start + 15) / 16 * 16)
      heapMagic).setSize ((start + 15) / 16 * 16) n).setFree ((start + 15) / 16 * 16) 1).setNext
      ((start + 15) / 16 * 16) 0).size ((start + 15) / 16 * 16) % 2 ^ 32 = n := by
    simp only [Heap.size, Heap.setNext, Heap.setFree, Heap.setSize, mem_store]
    rw [if_neg (by omega), if_neg (by omega), if_pos trivial, Nat.mod_eq_of_lt below]
  have notSmall : ¬size < headerSize + 16 := big
  unfold heapInit statics
  dsimp only
  rw [if_neg notSmall, rest, aligned, total]

theorem heapInit_sound (mem : Nat → Nat) {start size : Nat} (small : size < 2 ^ 32)
    (inside : start + size < 2 ^ 64) (big : ¬size < 48) (nonzero : start ≠ 0) :
    ∃ n, Sound ⟨heapInit (statics mem) start size, []⟩ [⟨n, true⟩] ∧
      (heapInit (statics mem) start size).heapStart + n + 32 = start + size ∧
      (heapInit (statics mem) start size).heapTotal = n := by
  obtain ⟨a, n, aEq, total, eq⟩ := heapInit_eq mem small inside big
  have mem_ : ∀ x, (heapInit (statics mem) start size).mem x =
      if x = a + 24 then 0 else if x = a + 16 then mem (a + 16) - mem (a + 16) % 2 ^ 32 + 1
      else if x = a + 8 then n else if x = a then heapMagic else mem x := by
    intro x
    rw [eq]
    simp only [Heap.setNext, Heap.setFree, Heap.setSize, Heap.setMagic, mem_store]
    rw [if_neg (by omega : ¬a + 16 = a + 8), if_neg (by omega : ¬a + 16 = a)]
  have start_ : (heapInit (statics mem) start size).heapStart = a := by rw [eq]; rfl
  have total_ : (heapInit (statics mem) start size).heapTotal = n := by rw [eq]
  have whole : extent 32 [⟨n, true⟩] = 32 + n := rfl
  refine ⟨n, ⟨List.cons_ne_nil _ _, ?_, ?_, List.isChain_singleton _, .nil, ?_⟩, ?_, total_⟩
  · rw [start_]
    refine ⟨⟨by omega, ?_, ?_, ?_, ?_⟩, trivial⟩
    · rw [mem_, if_neg (by omega), if_neg (by omega), if_neg (by omega), if_pos rfl]
    · rw [mem_, if_neg (by omega), if_neg (by omega), if_pos rfl]
    · rw [mem_, if_neg (by omega), if_pos rfl, if_pos rfl]
      exact lower_half _ _ (by decide)
    · rw [mem_, if_pos rfl, if_pos rfl]
  · rw [start_]
    refine ⟨?_, ?_, ?_, ?_, ?_⟩
    all_goals
      dsimp only
      omega
  · intro x none_
    cases none_
  · omega

/-- `heap_init` does nothing with a region that is too small, and the heap at the null
pointer is none. -/
theorem heapInit_heapStart (mem : Nat → Nat) {start size : Nat} (small : size < 2 ^ 32)
    (inside : start + size < 2 ^ 64) :
    (heapInit (statics mem) start size).heapStart = 0 ↔ size < 48 ∨ start = 0 := by
  by_cases big : size < 48
  · have eq : heapInit (statics mem) start size = statics mem := if_pos big
    rw [eq]
    exact iff_of_true rfl (.inl big)
  · obtain ⟨a, n, aEq, -, eq⟩ := heapInit_eq mem small inside big
    rw [eq]
    show a = 0 ↔ _
    omega

theorem step_off {s s' : State} {op : Op} (off : s.heap.heapStart = 0 ∧ s.live = [])
    (proper : Proper s op) (taken : Step s op s') : s'.heap.heapStart = 0 ∧ s'.live = [] := by
  obtain ⟨start, none_⟩ := off
  cases op with
  | kmalloc size =>
    have eq : kmalloc s.heap size = (s.heap, 0) := if_pos (.inl start)
    obtain rfl := Option.some.inj ((Sound.perform_kmalloc eq).symm.trans taken)
    exact ⟨start, none_⟩
  | kfree ptr =>
    obtain ⟨x, mem_, -⟩ := proper.1
    rw [none_] at mem_
    cases mem_
  | write a v =>
    obtain ⟨-, x, mem_, -⟩ := proper
    rw [none_] at mem_
    cases mem_

/-- **The heap.** From `heap_init` on, in every state reached by allocating, freeing what
is live and writing to what is live, with fewer than `HEAP_WALK_MAX` blocks: the blocks
tile the heap and no two free ones are neighbours, the live regions are disjoint, aligned,
inside and large enough, and freeing them all in any order leaves the one free block
there was at first. Without a heap nothing is ever allocated. -/
theorem run_tiled {mem : Nat → Nat} {start size : Nat} {ops : List Op} {s : State}
    (small : size < 2 ^ 32) (inside : start + size < 2 ^ 64)
    (run : Run Step Proper ⟨heapInit (statics mem) start size, []⟩ ops s) :
    (s.heap.heapStart = 0 ↔ size < 48 ∨ start = 0) ∧
    (s.heap.heapStart = 0 → s.live = []) ∧
    (s.heap.heapStart ≠ 0 →
      Tiled s.heap (start + size) ∧ Served s (start + size) ∧
      ∀ ptrs : List Nat, ptrs.Perm (s.live.map Prod.fst) → Few s.heap →
        ∃ t, Run Step Proper s (ptrs.map .kfree) t ∧ t.live = [] ∧
          Single t.heap ((heapInit (statics mem) start size).size
            (heapInit (statics mem) start size).heapStart)) := by
  have init := heapInit_heapStart mem small inside
  by_cases off : size < 48 ∨ start = 0
  · have start_ := init.mpr off
    have reached := run.invariant (P := fun s => s.heap.heapStart = 0 ∧ s.live = []) ⟨start_, rfl⟩ step_off
    exact ⟨iff_of_true reached.1 off, fun _ => reached.2, fun on => absurd reached.1 on⟩
  · obtain ⟨big, nonzero⟩ := not_or.mp off
    obtain ⟨n, first, end_, total⟩ := heapInit_sound mem small inside big nonzero
    have size_ := (first.single rfl).size
    generalize heapInit (statics mem) start size = h₀ at *
    have reached := run.invariant
      (P := fun s => (∃ bs, Sound s bs) ∧ s.heap.heapStart = h₀.heapStart ∧ s.heap.heapTotal = h₀.heapTotal)
      ⟨⟨_, first⟩, rfl, rfl⟩ (by
        rintro x op y ⟨⟨bs, sound⟩, sameStart, sameTotal⟩ proper taken
        obtain ⟨bs', sound', start', total'⟩ := sound.step proper taken
        exact ⟨⟨bs', sound'⟩, start'.trans sameStart, total'.trans sameTotal⟩)
    obtain ⟨⟨bs, sound⟩, sameStart, sameTotal⟩ := reached
    have top : s.heap.heapStart + s.heap.heapTotal + 32 = start + size := by
      rw [sameStart, sameTotal, total, end_]
    have on := sound.heapStart_ne
    refine ⟨iff_of_false on off, fun h => absurd h on, fun _ => ⟨?_, ?_, fun ptrs perm few => ?_⟩⟩
    · exact top ▸ sound.tiled
    · exact top ▸ sound.served
    · obtain ⟨t, freed, none_, single⟩ := sound.free_all few perm
      rw [sameTotal] at single
      exact ⟨t, freed, none_, size_ ▸ single⟩

/-- Two allocations, and the first is freed. -/
theorem run_tiled_two :
    ∃ s, Run Step Proper ⟨heapInit (statics fun _ => 0) 4096 1024, []⟩
        [.kmalloc 10, .kmalloc 100, .kfree 4128] s ∧
      s.live = [(4176, 100)] ∧ Tiled s.heap 5120 := by
  have done : ((runAll perform Proper ⟨heapInit (statics fun _ => 0) 4096 1024, []⟩
      [.kmalloc 10, .kmalloc 100, .kfree 4128]).filter fun s =>
      s.heap.heapStart ≠ 0 ∧ s.live = [(4176, 100)]).isSome = true := by
    decide +kernel
  obtain ⟨s, found⟩ := Option.isSome_iff_exists.mp done
  obtain ⟨ran, holds⟩ := Option.filter_eq_some_iff.mp found
  obtain ⟨on, live⟩ := of_decide_eq_true holds
  have run : Run Step Proper _ _ s := .of_runAll ran
  exact ⟨s, run, live, ((run_tiled (by decide) (by decide) run).2.2 on).1⟩

end AtmKoala.Kmalloc
