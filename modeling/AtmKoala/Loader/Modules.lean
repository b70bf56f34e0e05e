import Mathlib.Data.List.TakeWhile
import AtmKoala.Lib.Run
import AtmKoala.Loader.Model

/-!
Loading and unloading over whole runs.

* `Ends` lists what can come of `kmod_load`, and `kmodLoad_ends` that nothing else does.
* `contained_iff`: a load stays inside its buffers unless the sum of two of the header's
  fields does not fit the type it is compared in.
* `Sound` is the invariant. A name that is compared ends inside its header, since the
  offset of the code is small (`ended_of_word`).
* `module_loading`: the two together.
-/

namespace AtmKoala.Loader

open Lib Kmalloc
open Aligned (Lease Leased ProperSafe Safe step_off)

variable {s s' : System} {a : Attempt} {hdr : KmodHeader} {heap : Aligned.State} {size ptr : Nat}
  {x y : Lease}

/-! ### The heap -/

/-- A heap that is off, or in order. -/
def Grounded (heap : Aligned.State) : Prop :=
  (heap.heap.heapStart = 0 ∧ heap.live = []) ∨ ∃ bs, Leased heap bs

theorem grounded_of_perform {op : Aligned.Op} {heap' : Aligned.State} (grounded : Grounded heap)
    (proper : ProperSafe heap op) (done : Aligned.perform heap op = some heap') :
    Grounded heap' := by
  rcases grounded with off | ⟨bs, leased⟩
  · exact .inl (step_off off proper.1 done)
  · obtain ⟨cs, leased', -⟩ := leased.step proper done
    exact .inr ⟨cs, leased'⟩

/-- **A pointer belongs to one allocation.** -/
theorem ptr_unique {bs : List Chunk} (leased : Leased heap bs) (left : x ∈ heap.live)
    (right : y ∈ heap.live) (same : x.ptr = y.ptr) : x = y := by
  obtain ⟨d, b, taken, held⟩ := leased.held x left
  obtain ⟨e, c, taken', held'⟩ := leased.held y right
  have raw := held.raw
  have raw' := held'.raw
  have low := held.low
  have low' := held'.low
  have high := held.high
  have high' := held'.high
  refine List.inj_on_of_nodup_map leased.nodup left right ?_
  rcases places_apart (mem_used.mp taken).1 (mem_used.mp taken').1 with both | before | behind
  · have := (Prod.mk.inj both).1
    omega
  · omega
  · omega

theorem perform_kmalloc_eq (heap : Aligned.State) (size : Nat) :
    Aligned.perform heap (.kmalloc size) = some (allocate heap size).1 := rfl

theorem perform_kfree_eq (heap : Aligned.State) (ptr : Nat) :
    Aligned.perform heap (.kfree ptr) = some (release heap ptr) := rfl

theorem allocate_live (heap : Aligned.State) (size : Nat) :
    (allocate heap size).1.live = if (allocate heap size).2 = 0 then heap.live
      else ⟨(allocate heap size).2, (allocate heap size).2, size, 1⟩ :: heap.live := rfl

/-- An allocation that is made is a new one. -/
theorem allocate_fresh (grounded : Grounded heap) (small : size < 2 ^ 32)
    (some_ : (allocate heap size).2 ≠ 0) :
    Grounded (allocate heap size).1 ∧ ∀ x ∈ heap.live, x.ptr ≠ (allocate heap size).2 := by
  rcases grounded with off | ⟨bs, leased⟩
  · have null : kmalloc heap.heap size = (heap.heap, 0) := kmalloc_off off.1 size
    have none_ : (allocate heap size).2 = 0 := congrArg Prod.snd null
    exact absurd none_ some_
  · obtain ⟨t, cs, done, leased', -⟩ := leased.kmalloc_ (show size + 7 < 2 ^ 64 by omega)
    rw [perform_kmalloc_eq] at done
    obtain rfl := Option.some.inj done
    refine ⟨.inr ⟨cs, leased'⟩, fun x mem same => ?_⟩
    have live := allocate_live heap size
    rw [if_neg some_] at live
    have nodup := leased'.nodup
    have new : (⟨(allocate heap size).2, (allocate heap size).2, size, 1⟩ : Lease) ∈
        (allocate heap size).1.live := by
      rw [live]
      exact List.mem_cons_self
    have old : x ∈ (allocate heap size).1.live := by
      rw [live]
      exact List.mem_cons_of_mem _ mem
    have both := ptr_unique leased' old new same
    rw [live, List.map_cons, List.nodup_cons] at nodup
    exact nodup.1 (List.mem_map.mpr ⟨x, mem, congrArg Lease.raw both⟩)

/-- Giving back a block of `kmalloc` keeps the heap in order. -/
theorem release_grounded (grounded : Grounded heap) (mem : x ∈ heap.live) (plain : x.alignment ≤ 8) :
    Grounded (release heap x.ptr) := by
  rcases grounded with ⟨-, none_⟩ | ⟨bs, leased⟩
  · rw [none_] at mem
    cases mem
  · have safe : Safe heap (.kfree x.ptr) := by
      intro y mem' same over_
      rw [ptr_unique leased mem' mem same] at over_
      omega
    obtain ⟨t, cs, done, leased', -⟩ := leased.kfree_ ⟨x, mem, rfl⟩ safe
    rw [perform_kfree_eq] at done
    obtain rfl := Option.some.inj done
    exact .inr ⟨cs, leased'⟩

/-- What is copied into a live allocation is nobody else's. -/
theorem kmemcpy_grounded {h : Heap} {live : List Lease} {src : List UInt8}
    (grounded : Grounded ⟨h, live⟩) (mem : x ∈ live) (fits : src.length ≤ x.size) :
    Grounded ⟨kmemcpy h x.ptr src, live⟩ := by
  rcases grounded with ⟨-, none_⟩ | ⟨bs, leased⟩
  · dsimp only at none_
    rw [none_] at mem
    cases mem
  · refine .inr ⟨bs, ?_⟩
    have words : ∀ (is : List Nat) (h : Heap), Leased ⟨h, live⟩ bs → (∀ i ∈ is, 8 * i < src.length) →
        Leased ⟨is.foldl (fun h i =>
          let part := (src.drop (8 * i)).take 8
          let a := x.ptr + 8 * i
          h.store a (leNat part + h.mem a / 256 ^ part.length * 256 ^ part.length)) h, live⟩ bs := by
      intro is
      induction is with
      | nil => exact fun h leased _ => leased
      | cons i is ih =>
        intro h leased all
        have inside := all i List.mem_cons_self
        refine ih _ (leased.write_ _ ⟨x, mem, ?_, ?_⟩) fun j mem' => all j (List.mem_cons_of_mem _ mem')
        · exact Nat.le_add_right ..
        · omega
    refine words _ h leased fun i mem' => ?_
    rw [List.mem_range] at mem'
    omega

theorem Grounded.usable (grounded : Grounded heap) (mem : x ∈ heap.live) :
    Usable heap.heap x.ptr x.size := by
  rcases grounded with ⟨-, none_⟩ | ⟨bs, leased⟩
  · rw [none_] at mem
    cases mem
  · have alone : Leased ⟨heap.heap, [x]⟩ bs := by
      refine ⟨leased.nonempty, leased.chain, leased.fits, fun y only => ?_, List.nodup_singleton _⟩
      obtain rfl := List.mem_singleton.mp only
      exact leased.held y mem
    exact usable_of_leased alone

/-! ### What comes of a load -/

/-- **The ends of `kmod_load`.** -/
inductive Ends (s : System) (a : Attempt) : Loaded → Prop where
  | refused {rc : Int} (error : kmodHeader s a = .error rc) : Ends s a ⟨s, rc, none, none, false⟩
  | full {hdr : KmodHeader} (ok : kmodHeader s a = .ok hdr)
      (null : (allocate s.heap hdr.room).2 = 0) :
      Ends s a ⟨⟨s.modules, (allocate s.heap hdr.room).1⟩, -6, none, none, false⟩
  | short {hdr : KmodHeader} {heap : Aligned.State} {code : Nat} (ok : kmodHeader s a = .ok hdr)
      (got : allocate s.heap hdr.room = (heap, code)) (some_ : code ≠ 0)
      (less : (vfsRead a.second (filebufSize - 1)).1 < hdr.end_) :
      Ends s a ⟨⟨s.modules, release heap code⟩, -7, none, none, false⟩
  | failed {hdr : KmodHeader} {heap : Aligned.State} {code : Nat} {m : Kmod} {mismatch : Bool}
      (ok : kmodHeader s a = .ok hdr) (got : allocate s.heap hdr.room = (heap, code))
      (some_ : code ≠ 0) (enough : hdr.end_ ≤ (vfsRead a.second (filebufSize - 1)).1)
      (made : m = hdr.entry code .error) :
      Ends s a ⟨⟨s.modules, release ⟨kmemcpy heap.heap code (a.code hdr), heap.live⟩ code⟩, -8,
        some ⟨⟨code, code, hdr.room, 1⟩, hdr.codeOffset, hdr.codeSize,
          (vfsRead a.second (filebufSize - 1)).1⟩, some m, mismatch⟩
  | loaded {hdr : KmodHeader} {heap : Aligned.State} {code : Nat} {m : Kmod} {mismatch : Bool}
      (ok : kmodHeader s a = .ok hdr) (got : allocate s.heap hdr.room = (heap, code))
      (some_ : code ≠ 0) (enough : hdr.end_ ≤ (vfsRead a.second (filebufSize - 1)).1)
      (made : m = hdr.entry code .active) :
      Ends s a ⟨⟨s.modules ++ [m], ⟨kmemcpy heap.heap code (a.code hdr), heap.live⟩⟩, 0,
        some ⟨⟨code, code, hdr.room, 1⟩, hdr.codeOffset, hdr.codeSize,
          (vfsRead a.second (filebufSize - 1)).1⟩, some m, mismatch⟩

theorem kmodLoad_ends (s : System) (a : Attempt) : Ends s a (kmodLoad s a) := by
  unfold kmodLoad
  cases ok : kmodHeader s a with
  | error rc => exact .refused ok
  | ok hdr =>
    dsimp only
    cases got : allocate s.heap hdr.room with
    | mk heap code =>
      dsimp only
      by_cases null : code = 0
      · have none_ : (allocate s.heap hdr.room).2 = 0 := by rw [got]; exact null
        rw [if_pos null]
        have end_ := Ends.full ok none_
        rw [got] at end_
        exact end_
      rw [if_neg null]
      by_cases less : (vfsRead a.second (filebufSize - 1)).1 < hdr.end_
      · rw [if_pos less]
        exact .short ok got null less
      rw [if_neg less]
      split
      · exact .failed ok got null (Int.not_lt.mp less) rfl
      · exact .loaded ok got null (Int.not_lt.mp less) rfl

/-- A load that overreaches copies from a header that was accepted. -/
theorem overreaches_iff (ok : kmodHeader s a = .ok hdr) :
    Overreaches s a ↔ (allocate s.heap hdr.room).2 ≠ 0 ∧
      hdr.end_ ≤ (vfsRead a.second (filebufSize - 1)).1 ∧
      0 < hdr.codeSize ∧ 2 ^ 31 ≤ hdr.codeOffset + hdr.codeSize := by
  constructor
  · rintro ⟨hdr', ok', rest⟩
    obtain rfl := Except.ok.inj (ok.symm.trans ok')
    exact rest
  · intro rest
    exact ⟨hdr, ok, rest⟩

theorem read_le (opened : Opened) (size : Nat) : (vfsRead opened size).1 ≤ size := by
  cases opened with
  | failed => show (-1 : Int) ≤ size; omega
  | unreadable errno => show -1 - (errno : Int) ≤ size; omega
  | contents bytes =>
    have less := List.length_take_le size bytes
    show ((bytes.take size).length : Int) ≤ size
    exact_mod_cast less

theorem int32_small {n : Nat} (small : n < 2 ^ 31) : int32 n = n := by
  have same : n % 2 ^ 32 = n := Nat.mod_eq_of_lt (by omega)
  rw [int32, same, if_pos small]

/-- What the checks leave of a copy of at least one byte that does not overreach. -/
theorem bounds_of_copy (ok : kmodHeader s a = .ok hdr) (some_ : (allocate s.heap hdr.room).2 ≠ 0)
    (enough : hdr.end_ ≤ (vfsRead a.second (filebufSize - 1)).1) (within : ¬Overreaches s a)
    (pos : 0 < hdr.codeSize) :
    ((hdr.codeOffset + hdr.codeSize : Nat) : Int) ≤ (vfsRead a.second (filebufSize - 1)).1 ∧
      hdr.room = hdr.codeSize + 4 ∧ hdr.codeOffset + hdr.codeSize < filebufSize := by
  have small : hdr.codeOffset + hdr.codeSize < 2 ^ 31 := by
    by_contra large
    exact within ((overreaches_iff ok).mpr ⟨some_, enough, pos, Nat.le_of_not_lt large⟩)
  have read := read_le a.second (filebufSize - 1)
  rw [KmodHeader.end_, int32_small small] at enough
  refine ⟨enough, Nat.mod_eq_of_lt (by omega), ?_⟩
  unfold filebufSize at *
  omega

/-- A copy stays inside its buffers just where it does not overreach. -/
theorem contained_copy {heap : Aligned.State} {code : Nat} {m : Kmod} {r : Loaded}
    (ok : kmodHeader s a = .ok hdr) (got : allocate s.heap hdr.room = (heap, code))
    (some_ : code ≠ 0) (enough : hdr.end_ ≤ (vfsRead a.second (filebufSize - 1)).1)
    (copy : r.copy = some ⟨⟨code, code, hdr.room, 1⟩, hdr.codeOffset, hdr.codeSize,
      (vfsRead a.second (filebufSize - 1)).1⟩)
    (entry : r.entry = some m) (init : m.init = (hdr.entry code .active).init)
    (exit : m.exit = (hdr.entry code .active).exit) : Contained r ↔ ¬Overreaches s a := by
  have some' : (allocate s.heap hdr.room).2 ≠ 0 := by rwa [got]
  constructor
  · intro contained over_
    obtain ⟨-, -, pos, large⟩ := (overreaches_iff ok).mp over_
    have last := (contained.copied _ copy (hdr.codeSize - 1) (Nat.sub_lt pos Nat.one_pos)).1
    have read := read_le a.second (filebufSize - 1)
    dsimp only at last
    unfold filebufSize at *
    omega
  · intro within
    refine ⟨fun c copied k less => ?_, fun c m' copied made p at_ => ?_⟩
    · obtain rfl := Option.some.inj (copy.symm.trans copied)
      dsimp only at less ⊢
      obtain ⟨end_, room, -⟩ := bounds_of_copy ok some' enough within (by omega)
      rw [room]
      omega
    · obtain rfl := Option.some.inj (copy.symm.trans copied)
      obtain rfl := Option.some.inj (entry.symm.trans made)
      rw [init, exit] at at_
      obtain ⟨off, less, rfl⟩ : ∃ off, off < hdr.codeSize ∧ p = code + off := by
        rcases at_ with at_ | at_
        · by_cases inside : hdr.initOffset < hdr.codeSize
          · exact ⟨_, inside, (Option.some.inj ((if_pos inside).symm.trans at_)).symm⟩
          · cases (if_neg inside).symm.trans at_
        · by_cases inside : hdr.exitOffset ≠ 0 ∧ hdr.exitOffset < hdr.codeSize
          · exact ⟨_, inside.2, (Option.some.inj ((if_pos inside).symm.trans at_)).symm⟩
          · cases (if_neg inside).symm.trans at_
      obtain ⟨-, room, -⟩ := bounds_of_copy ok some' enough within (by omega)
      dsimp only
      rw [room]
      omega

/-- **A load stays inside its buffers** unless it overreaches. -/
theorem contained_iff (s : System) (a : Attempt) : Contained (kmodLoad s a) ↔ ¬Overreaches s a := by
  have none_ : ∀ {r : Loaded}, r.copy = none → Contained r := fun none_ =>
    ⟨fun c copy => (by rw [none_] at copy; cases copy),
      fun c m copy => (by rw [none_] at copy; cases copy)⟩
  have ends := kmodLoad_ends s a
  generalize kmodLoad s a = r at ends ⊢
  cases ends with
  | refused error =>
    refine iff_of_true (none_ rfl) ?_
    rintro ⟨hdr, ok, -⟩
    rw [error] at ok
    cases ok
  | full ok null => exact iff_of_true (none_ rfl) fun over_ => ((overreaches_iff ok).mp over_).1 null
  | short ok got some_ less =>
    exact iff_of_true (none_ rfl) fun over_ =>
      absurd ((overreaches_iff ok).mp over_).2.1 (Int.not_le.mpr less)
  | failed ok got some_ enough made =>
    exact contained_copy ok got some_ enough rfl rfl (by rw [made]; rfl) (by rw [made]; rfl)
  | loaded ok got some_ enough made =>
    exact contained_copy ok got some_ enough rfl rfl (by rw [made]) (by rw [made])

/-! ### Names -/

/-- What is known of a header that was accepted. -/
theorem kmodHeader_ok (ok : kmodHeader s a = .ok hdr) :
    hdr.bytes.length = kmodHeaderSize ∧ ∀ m ∈ s.modules, m.name ≠ hdr.name a.behind := by
  have read : ∀ {opened : Opened}, ¬(vfsRead opened kmodHeaderSize).1 < kmodHeaderSize →
      (vfsRead opened kmodHeaderSize).2.length = kmodHeaderSize := by
    intro opened enough
    cases opened with
    | failed => exact absurd (by decide) enough
    | unreadable errno =>
      refine absurd ?_ enough
      show -1 - (errno : Int) < kmodHeaderSize
      unfold kmodHeaderSize
      omega
    | contents bytes =>
      have less := List.length_take_le kmodHeaderSize bytes
      have more : kmodHeaderSize ≤ (bytes.take kmodHeaderSize).length := by
        have read : (kmodHeaderSize : Int) ≤ ((bytes.take kmodHeaderSize).length : Int) :=
          Int.not_lt.mp enough
        exact_mod_cast read
      exact Nat.le_antisymm less more
  unfold kmodHeader at ok
  split at ok
  · cases ok
  split at ok
  · cases ok
  dsimp only at ok
  split at ok
  · cases ok
  rename_i enough
  split at ok
  · cases ok
  split at ok
  · cases ok
  rename_i new
  obtain rfl := Except.ok.inj ok
  refine ⟨read enough, fun m mem same => new ?_⟩
  exact List.find?_isSome.mpr ⟨m, mem, decide_eq_true same⟩

/-- A field that is small has a null byte. -/
theorem ended_of_word {off : Nat} (front : 8 ≤ off) (inside : off + 4 ≤ hdr.bytes.length)
    (small : hdr.word off < 2 ^ 24) : (0 : UInt8) ∈ hdr.bytes.drop 8 := by
  obtain ⟨b₀, b₁, b₂, b₃, four⟩ : ∃ b₀ b₁ b₂ b₃, (hdr.bytes.drop off).take 4 = [b₀, b₁, b₂, b₃] := by
    have length : ((hdr.bytes.drop off).take 4).length = 4 := by
      rw [List.length_take, List.length_drop]
      omega
    match (hdr.bytes.drop off).take 4, length with
    | [b₀, b₁, b₂, b₃], _ => exact ⟨b₀, b₁, b₂, b₃, rfl⟩
  have last : b₃ = 0 := by
    rw [KmodHeader.word, four] at small
    simp only [leNat] at small
    rw [← UInt8.toNat_inj, UInt8.toNat_zero]
    omega
  have mem : b₃ ∈ (hdr.bytes.drop off).take 4 := by
    rw [four]
    simp
  have behind : hdr.bytes.drop off = (hdr.bytes.drop 8).drop (off - 8) := by
    rw [List.drop_drop]
    congr 1
    omega
  rw [behind] at mem
  rw [← last]
  exact List.mem_of_mem_drop (List.mem_of_mem_take mem)

/-- **A name that ends inside its header** does not depend on what is behind. -/
theorem name_of_ended (ended : (0 : UInt8) ∈ hdr.bytes.drop 8) (behind : List UInt8) :
    hdr.name behind = cstring (hdr.bytes.drop 8) := by
  unfold KmodHeader.name cstring
  rw [List.takeWhile_append, if_neg]
  intro whole
  have all := (List.takeWhile_prefix (p := fun b : UInt8 => decide (b ≠ 0))
    (l := hdr.bytes.drop 8)).eq_of_length whole
  rw [← all] at ended
  have kept := List.mem_takeWhile_imp (p := fun b : UInt8 => decide (b ≠ 0)) ended
  exact absurd kept (by decide)

/-! ### The invariant -/

/-- What holds in every state that is reached. -/
structure Sound (s : System) : Prop where
  grounded : Grounded s.heap
  live : ∀ m ∈ s.modules, ⟨m.code, m.code, m.hdr.room, 1⟩ ∈ s.heap.live
  room : ∀ m ∈ s.modules, m.hdr.codeSize ≤ m.hdr.room
  apart : (s.modules.map Kmod.code).Nodup
  ended : ∀ m ∈ s.modules, (0 : UInt8) ∈ m.hdr.bytes.drop 8
  named : (s.modules.map Kmod.name).Nodup

theorem Usable.shorter {h : Heap} {n : Nat} (usable : Usable h ptr size) (less : n ≤ size) :
    Usable h ptr n := by
  obtain ⟨d, block, taken, front, behind⟩ := usable.block
  have high := usable.high
  exact ⟨usable.low, by omega, d, block, taken, front, by omega⟩

theorem Sound.owned (sound : Sound s) : Owned s where
  live := sound.live
  usable := fun m mem =>
    Usable.shorter (sound.grounded.usable (sound.live m mem)) (sound.room m mem)
  apart := sound.apart
  named := sound.named

theorem room_lt (hdr : KmodHeader) : hdr.room < 2 ^ 32 := Nat.mod_lt _ (by decide)

/-- The heap and the new block while a load is under way. -/
theorem allocated (sound : Sound s) {code : Nat} (got : allocate s.heap hdr.room = (heap, code))
    (some_ : code ≠ 0) :
    Grounded heap ∧ heap.live = ⟨code, code, hdr.room, 1⟩ :: s.heap.live ∧
      ∀ x ∈ s.heap.live, x.ptr ≠ code := by
  have some' : (allocate s.heap hdr.room).2 ≠ 0 := by rwa [got]
  have fresh := allocate_fresh sound.grounded (room_lt hdr) some'
  have live := allocate_live s.heap hdr.room
  rw [if_neg some'] at live
  rw [got] at fresh live
  exact ⟨fresh.1, live, fresh.2⟩

/-- The new block is given back, whatever was written to it. -/
theorem release_new {h : Heap} {live : List Lease} {code : Nat}
    (grounded : Grounded ⟨h, ⟨code, code, size, 1⟩ :: live⟩) :
    Grounded (release ⟨h, ⟨code, code, size, 1⟩ :: live⟩ code) ∧
      (release ⟨h, ⟨code, code, size, 1⟩ :: live⟩ code).live = live := by
  have plain : (⟨code, code, size, 1⟩ : Lease).alignment ≤ 8 := show 1 ≤ 8 by decide
  refine ⟨release_grounded grounded List.mem_cons_self plain, ?_⟩
  show List.eraseP _ _ = _
  rw [List.eraseP_cons_of_pos (by simp)]

theorem length_code (a : Attempt) (hdr : KmodHeader) : (a.code hdr).length = hdr.codeSize := by
  show ((List.range hdr.codeSize).map _).length = _
  rw [List.length_map, List.length_range]

/-- A copy that does not overreach leaves the heap in order. -/
theorem copied_grounded (sound : Sound s) {code : Nat} (ok : kmodHeader s a = .ok hdr)
    (got : allocate s.heap hdr.room = (heap, code)) (some_ : code ≠ 0)
    (enough : hdr.end_ ≤ (vfsRead a.second (filebufSize - 1)).1) (within : ¬Overreaches s a) :
    Grounded ⟨kmemcpy heap.heap code (a.code hdr), ⟨code, code, hdr.room, 1⟩ :: s.heap.live⟩ ∧
      hdr.codeSize ≤ hdr.room := by
  obtain ⟨grounded, live, -⟩ := allocated sound got some_
  have fits : hdr.codeSize ≤ hdr.room := by
    by_cases pos : 0 < hdr.codeSize
    · obtain ⟨-, room, -⟩ := bounds_of_copy ok (by rwa [got]) enough within pos
      omega
    · omega
  refine ⟨?_, fits⟩
  rw [← live]
  have new : ⟨code, code, hdr.room, 1⟩ ∈ heap.live := by
    rw [live]
    exact List.mem_cons_self
  have short : (a.code hdr).length ≤ (⟨code, code, hdr.room, 1⟩ : Lease).size := by
    rw [length_code]
    exact fits
  exact kmemcpy_grounded grounded new short

/-- A heap in order, in which the modules still have their blocks. -/
theorem Sound.reheap (sound : Sound s) (grounded : Grounded heap)
    (live : ∀ m ∈ s.modules, ⟨m.code, m.code, m.hdr.room, 1⟩ ∈ heap.live) :
    Sound ⟨s.modules, heap⟩ :=
  ⟨grounded, live, sound.room, sound.apart, sound.ended, sound.named⟩

/-- **One load** that does not overreach: the invariant is kept, and where an error is
returned the modules and the live allocations are those from before. -/
theorem load_sound (sound : Sound s) (within : ¬Overreaches s a) :
    Sound (kmodLoad s a).system ∧ ((kmodLoad s a).rc < 0 →
      (kmodLoad s a).system.modules = s.modules ∧
      (kmodLoad s a).system.heap.live = s.heap.live) := by
  have ends := kmodLoad_ends s a
  generalize kmodLoad s a = r at ends ⊢
  cases ends with
  | refused error => exact ⟨sound, fun _ => ⟨rfl, rfl⟩⟩
  | @full hdr ok null =>
    have proper : ProperSafe s.heap (.kmalloc hdr.room) :=
      ⟨show hdr.room ≤ 2 ^ 63 from (room_lt hdr).le.trans (by decide), trivial⟩
    have grounded := grounded_of_perform sound.grounded proper (perform_kmalloc_eq s.heap hdr.room)
    have live := allocate_live s.heap hdr.room
    rw [if_pos null] at live
    refine ⟨sound.reheap grounded fun m mem => ?_, fun _ => ⟨rfl, live⟩⟩
    rw [live]
    exact sound.live m mem
  | @short hdr heap code ok got some_ less =>
    obtain ⟨grounded, live, -⟩ := allocated sound got some_
    obtain ⟨h, _⟩ := heap
    obtain rfl : _ = _ := live
    obtain ⟨freed, left⟩ := release_new grounded
    refine ⟨sound.reheap freed fun m mem => ?_, fun _ => ⟨rfl, left⟩⟩
    rw [left]
    exact sound.live m mem
  | @failed hdr heap code m mismatch ok got some_ enough made =>
    obtain ⟨grounded, -⟩ := copied_grounded sound ok got some_ enough within
    obtain ⟨-, live, -⟩ := allocated sound got some_
    obtain ⟨freed, left⟩ := release_new grounded
    rw [live]
    refine ⟨sound.reheap freed fun m mem => ?_, fun _ => ⟨rfl, left⟩⟩
    rw [left]
    exact sound.live m mem
  | @loaded hdr heap code m mismatch ok got some_ enough made =>
    obtain ⟨grounded, fits⟩ := copied_grounded sound ok got some_ enough within
    obtain ⟨-, live, fresh⟩ := allocated sound got some_
    obtain ⟨length, new⟩ := kmodHeader_ok ok
    have ended : (0 : UInt8) ∈ hdr.bytes.drop 8 := by
      by_cases pos : 0 < hdr.codeSize
      · obtain ⟨-, -, small⟩ := bounds_of_copy ok (by rwa [got]) enough within pos
        have less : hdr.codeOffset < 2 ^ 24 := by
          unfold filebufSize at small
          omega
        exact ended_of_word (by decide) (by rw [length]; decide) less
      · have zero : hdr.codeSize < 2 ^ 24 := by omega
        exact ended_of_word (by decide) (by rw [length]; decide) zero
    have name : m.name = hdr.name a.behind := by
      rw [made]
      exact (name_of_ended ended _).trans (name_of_ended ended _).symm
    have code_ : m.code = code := by rw [made]; rfl
    have hdr_ : m.hdr = hdr := by rw [made]; rfl
    rw [live]
    refine ⟨⟨grounded, ?_, ?_, ?_, ?_, ?_⟩, fun negative => absurd negative (Int.lt_irrefl 0)⟩
    · intro m' mem
      rcases List.mem_append.mp mem with mem | mem
      · exact List.mem_cons_of_mem _ (sound.live m' mem)
      · rw [List.mem_singleton.mp mem, code_, hdr_]
        exact List.mem_cons_self
    · intro m' mem
      rcases List.mem_append.mp mem with mem | mem
      · exact sound.room m' mem
      · rw [List.mem_singleton.mp mem, hdr_]
        exact fits
    · rw [List.map_append, List.nodup_append]
      refine ⟨sound.apart, List.nodup_singleton _, ?_⟩
      rintro _ old _ last rfl
      obtain ⟨m', mem, same⟩ := List.mem_map.mp old
      rw [List.map_singleton, List.mem_singleton, code_] at last
      exact fresh _ (sound.live m' mem) (same.trans last)
    · intro m' mem
      rcases List.mem_append.mp mem with mem | mem
      · exact sound.ended m' mem
      · rw [List.mem_singleton.mp mem, hdr_]
        exact ended
    · rw [List.map_append, List.nodup_append]
      refine ⟨sound.named, List.nodup_singleton _, ?_⟩
      rintro _ old _ last rfl
      obtain ⟨m', mem, same⟩ := List.mem_map.mp old
      rw [List.map_singleton, List.mem_singleton, name] at last
      exact new m' mem (same.trans last)

/-- An allocation other than the one that is given back stays. -/
theorem mem_release (mem : x ∈ heap.live) (other : x.ptr ≠ ptr) : x ∈ (release heap ptr).live :=
  (List.mem_eraseP_of_neg (by simpa using other)).mpr mem

theorem unload_sound (sound : Sound s) (name : List UInt8) : Sound (kmodUnload s name).1 := by
  unfold kmodUnload
  cases found : kmodFind s name with
  | none => exact sound
  | some m =>
    have mem : m ∈ s.modules := List.mem_of_find?_eq_some found
    have named : m.name = name := by
      have holds := List.find?_some (p := fun m : Kmod => decide (m.name = name)) found
      exact of_decide_eq_true holds
    have sub := List.eraseP_sublist (p := fun m : Kmod => m.name = name) (l := s.modules)
    have plain : (⟨m.code, m.code, m.hdr.room, 1⟩ : Lease).alignment ≤ 8 := show 1 ≤ 8 by decide
    refine ⟨release_grounded sound.grounded (sound.live m mem) plain, fun m' left => ?_,
      fun m' left => sound.room m' (sub.subset left), sound.apart.sublist (sub.map _),
      fun m' left => sound.ended m' (sub.subset left), sound.named.sublist (sub.map _)⟩
    have mem' := sub.subset left
    refine mem_release (sound.live m' mem') fun same => ?_
    obtain rfl := List.inj_on_of_nodup_map sound.apart mem' mem same
    have gone : m'.name ∉ (s.modules.eraseP (·.name = name)).map Kmod.name := by
      have erased : (s.modules.eraseP (·.name = name)).map Kmod.name =
          (s.modules.map Kmod.name).erase name := by
        rw [List.erase_eq_eraseP, List.eraseP_map]
        congr 2
        funext y
        show decide (y.name = name) = (name == y.name)
        rw [Bool.eq_iff_iff, decide_eq_true_eq, beq_iff_eq, eq_comm]
      rw [erased, named]
      exact sound.named.not_mem_erase
    exact gone (List.mem_map_of_mem left)

/-- What the others do to the heap. -/
theorem heap_sound (sound : Sound s) {op : Aligned.Op} (proper : ProperSafe s.heap op)
    (theirs : ∀ m ∈ s.modules, op ≠ .kfree m.code) (done : Aligned.perform s.heap op = some heap) :
    Sound ⟨s.modules, heap⟩ := by
  refine sound.reheap (grounded_of_perform sound.grounded proper done) fun m mem => ?_
  have owns := sound.live m mem
  cases op with
  | kmalloc size =>
    obtain rfl := Option.some.inj done
    dsimp only
    split
    · exact owns
    · exact List.mem_cons_of_mem _ owns
  | kmallocAligned size alignment =>
    cases got : kmallocAligned s.heap.heap size alignment with
    | mk h ptr =>
      rw [Leased.perform_kmallocAligned got] at done
      obtain rfl := Option.some.inj done
      dsimp only
      split
      · exact owns
      · exact List.mem_cons_of_mem _ owns
  | kfree ptr =>
    obtain rfl := Option.some.inj done
    exact mem_release owns fun same => theirs m mem (congrArg _ (Eq.symm same))
  | write at_ v =>
    obtain rfl := Option.some.inj done
    exact owns

theorem step_sound {act : Action} (sound : Sound s) (allowed : Allowed s act) (taken : Step s act s') :
    Sound s' := by
  cases act with
  | load a =>
    obtain rfl := Option.some.inj taken
    exact (load_sound sound allowed).1
  | unload name =>
    obtain rfl := Option.some.inj taken
    exact unload_sound sound name
  | heap op =>
    obtain ⟨heap, done, rfl⟩ := Option.map_eq_some_iff.mp taken
    exact heap_sound sound allowed.1 allowed.2 done

/-- **Module loading.** In every run without a load that overreaches, from any heap: the modules
have names and blocks of their own. Of the next load, it stays inside its buffers just where it
does not overreach; the block that it copies to is a new one; and if it does not overreach and
returns an error, the modules and the live allocations are those from before. -/
theorem module_loading {heap : Aligned.State} (grounded : Grounded heap) {acts : List Action}
    (run : Run Step Allowed ⟨[], heap⟩ acts s) :
    Owned s ∧ ∀ a : Attempt,
      (Contained (kmodLoad s a) ↔ ¬Overreaches s a) ∧
      (∀ c, (kmodLoad s a).copy = some c → ∀ x ∈ s.heap.live, x.ptr ≠ c.block.ptr) ∧
      (¬Overreaches s a → (kmodLoad s a).rc < 0 →
        (kmodLoad s a).system.modules = s.modules ∧
        (kmodLoad s a).system.heap.live = s.heap.live) := by
  have start : Sound ⟨[], heap⟩ :=
    ⟨grounded, nofun, nofun, List.nodup_nil, nofun, List.nodup_nil⟩
  have sound := run.invariant start step_sound
  refine ⟨sound.owned, fun a => ⟨contained_iff s a, fun c copied => ?_,
    fun within => (load_sound sound within).2⟩⟩
  have ends := kmodLoad_ends s a
  generalize kmodLoad s a = r at ends copied
  cases ends with
  | refused => cases copied
  | full => cases copied
  | short => cases copied
  | failed ok got some_ enough made =>
    cases copied
    exact (allocated sound got some_).2.2
  | loaded ok got some_ enough made =>
    cases copied
    exact (allocated sound got some_).2.2

/-! ### A file -/

/-- A module called `hi` of two bytes of code, with an offset and a size in its header. -/
def hiFile (codeOffset codeSize : Nat) : List UInt8 :=
  leBytes 4 kmodMagic ++ [1, 0, 0, 0] ++ [104, 105] ++ List.replicate 158 0 ++
    leBytes 4 0 ++ leBytes 4 0 ++ leBytes 4 codeOffset ++ leBytes 4 codeSize ++ leBytes 4 0 ++
    [0x31, 0xC3]

/-- A load of that file; `init` succeeds. -/
def hiAttempt (codeOffset codeSize : Nat) : Attempt :=
  ⟨.contents (hiFile codeOffset codeSize), .contents (hiFile codeOffset codeSize), [], fun _ => 0, 0⟩

/-- A heap of 1 KiB. -/
def hiHeap : Aligned.State := ⟨heapInit (statics fun _ => 0) 4096 1024, []⟩

theorem hiHeap_grounded : Grounded hiHeap := by
  obtain ⟨n, sound, -⟩ := @heapInit_sound (fun _ => 0) 4096 1024 (by decide) (by decide) (by decide)
    (by decide)
  exact .inr ⟨_, Aligned.leased_of_sound sound⟩

/-- The file is loaded, and then once more. -/
theorem module_loading_one :
    Owned (kmodLoad ⟨[], hiHeap⟩ (hiAttempt 188 2)).system ∧
      (kmodLoad ⟨[], hiHeap⟩ (hiAttempt 188 2)).rc = 0 ∧
      (kmodLoad (kmodLoad ⟨[], hiHeap⟩ (hiAttempt 188 2)).system (hiAttempt 188 2)).rc = -5 := by
  have sums : (kmodHeader ⟨[], hiHeap⟩ (hiAttempt 188 2)).toOption.map
      (fun hdr => hdr.codeOffset + hdr.codeSize) = some 190 := by decide +kernel
  have within : ¬Overreaches ⟨[], hiHeap⟩ (hiAttempt 188 2) := by
    rintro ⟨hdr, ok, -, -, -, large⟩
    rw [ok] at sums
    have sum : hdr.codeOffset + hdr.codeSize = 190 := Option.some.inj sums
    omega
  have run : Run Step Allowed ⟨[], hiHeap⟩ [.load (hiAttempt 188 2)] _ := .single within rfl
  exact ⟨(module_loading hiHeap_grounded run).1, by decide +kernel, by decide +kernel⟩

/-- **An offset of 2 GiB**: as an `int` the sum is negative, and so not more than the 190 bytes
of the file. What is copied are two bytes 2 GiB behind the buffer. -/
theorem far_code_copied :
    (kmodLoad ⟨[], hiHeap⟩ (hiAttempt (2 ^ 31) 2)).rc = 0 ∧
    (kmodLoad ⟨[], hiHeap⟩ (hiAttempt (2 ^ 31) 2)).copy =
      some ⟨⟨4128, 4128, 6, 1⟩, 2 ^ 31, 2, 190⟩ ∧
    ¬Contained (kmodLoad ⟨[], hiHeap⟩ (hiAttempt (2 ^ 31) 2)) := by
  have copy : (kmodLoad ⟨[], hiHeap⟩ (hiAttempt (2 ^ 31) 2)).copy =
      some ⟨⟨4128, 4128, 6, 1⟩, 2 ^ 31, 2, 190⟩ := by decide +kernel
  refine ⟨by decide +kernel, copy, fun contained => ?_⟩
  exact absurd (contained.copied _ copy 0 (by decide)).1 (by decide)

end AtmKoala.Loader
