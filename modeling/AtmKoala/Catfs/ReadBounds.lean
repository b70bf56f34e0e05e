import AtmKoala.Catfs.Agree

/-!
How much `catfs_read` returns.

The length is cut to the size of the file when `offset + len`, a sum of 32 bits, is greater
than it. The loop behind trusts the block map.

* `World.Readable`: the block map leads to a sector that can be read. Nothing else is asked
  of the volume here.
* `readLoop_reaches` and `readLoop_stops`: how far the loop gets.
* `read_bounds`: a read is exact unless the sum wraps, and then only where the file ends with
  a block and there is none behind.
-/

namespace AtmKoala.Catfs

open Lib

/-! ### Through the VFS -/

/-- `vfs_fd_t` of a descriptor of CatFS, as far as a read goes; `priv` is that of the inode. -/
structure CatfsFd where
  flags : Nat
  offset : Nat
  priv : Nat
deriving DecidableEq

def oAccmode : Nat := 3
def oWronly : Nat := 1
def einval : Int := 22

/-- `catfs_vfs_index`. -/
def catfsVfsIndex (priv : Nat) : Int := if priv = 0 then -1 else priv - 1

/-- `catfs_vfs_read`. -/
def catfsVfsRead (w : World) (priv off size : Nat) (now : UInt32) : World × Int × List UInt8 :=
  let idx := catfsVfsIndex priv
  if idx < 0 ∨ off > 0xFFFFFFFF ∨ size > 0xFFFFFFFF then (w, -einval, [])
  else catfsRead w idx (UInt32.ofNat off) (UInt32.ofNat size) now

/-- `vfs_read` of a descriptor; `permitted` is what `vfs_require` says. -/
def vfsRead (w : World) (f : Option CatfsFd) (permitted : Bool) (size : Nat) (now : UInt32) :
    (World × Option CatfsFd) × Int × List UInt8 :=
  match f with
  | none => ((w, none), -1, [])
  | some f =>
    if f.flags &&& oAccmode = oWronly ∨ permitted = false then ((w, some f), -1, [])
    else
      match catfsVfsRead w f.priv f.offset size now with
      | (w, n, bytes) =>
        ((w, some { f with offset := if n > 0 then f.offset + n.toNat else f.offset }), n, bytes)

/-! ### The loop -/

/-- Block `blk` of a file is in the block map and can be read. -/
def World.Readable (w : World) (i : Fin 256) (blk : Nat) : Prop :=
  ((resolveBlock w i blk false).2.bind fun phys => dskRead w (blockLba w.catfs phys)).isSome = true

instance (w : World) (i : Fin 256) (blk : Nat) : Decidable (w.Readable i blk) :=
  inferInstanceAs (Decidable (_ = true))

section Loop

variable {w : World} {i : Fin 256} {offset len done : UInt32} {fuel : Nat} {acc : List UInt8}

/-- **One round** over a block that can be read. -/
theorem readLoop_round (more : done.toNat < len.toNat)
    (nowrap : offset.toNat + done.toNat < 4294967296)
    (here : w.Readable i ((offset.toNat + done.toNat) / 512)) :
    ∃ part : List UInt8, 0 < part.length ∧
      part.length = min (len.toNat - done.toNat) (512 - (offset.toNat + done.toNat) % 512) ∧
      (done + UInt32.ofNat part.length).toNat = done.toNat + part.length ∧
      readLoop w i offset len (fuel + 1) done acc =
        readLoop w i offset len fuel (done + UInt32.ofNat part.length) (acc ++ part) := by
  have sum : (offset + done).toNat = offset.toNat + done.toNat := by
    rw [UInt32.toNat_add]
    omega
  have left : (len - done).toNat = len.toNat - done.toNat :=
    UInt32.toNat_sub_of_le _ _ (UInt32.le_iff_toNat_le.mpr (by omega))
  have top := len.toNat_lt
  obtain ⟨sec, read⟩ := Option.isSome_iff_exists.mp here
  obtain ⟨phys, found, sector⟩ := Option.bind_eq_some_iff.mp read
  have some_ : resolveBlock w i ((offset + done).toNat / blockSize) false =
      ((resolveBlock w i ((offset + done).toNat / blockSize) false).1, some phys) := by
    rw [sum]
    exact Prod.ext rfl found
  have block : blockSize = 512 := rfl
  refine ⟨(List.range (min (len - done).toNat (blockSize - (offset + done).toNat % blockSize))).map
    fun k => sec.byteAt ((offset + done).toNat % blockSize + k), ?_, ?_, ?_, ?_⟩
  · rw [List.length_map, List.length_range, left, block]
    omega
  · rw [List.length_map, List.length_range, left, sum, block]
  · rw [List.length_map, List.length_range, UInt32.toNat_add, UInt32.toNat_ofNat', left]
    omega
  · rw [readLoop, if_neg (not_not.mpr (UInt32.lt_iff_toNat_lt.mpr more))]
    dsimp only
    rw [some_]
    dsimp only
    rw [sector, List.length_map, List.length_range]

/-- The loop gets over all blocks that can be read. -/
theorem readLoop_reaches {m : Nat} (within : m ≤ len.toNat)
    (nowrap : offset.toNat + m ≤ 4294967296)
    (readable : ∀ k < m, w.Readable i ((offset.toNat + k) / 512))
    (enough : len.toNat ≤ done.toNat + fuel) (count : acc.length = done.toNat) :
    m ≤ (readLoop w i offset len fuel done acc).length := by
  have kept : ∀ {fuel : Nat} {done : UInt32} {acc : List UInt8}, m ≤ acc.length →
      m ≤ (readLoop w i offset len fuel done acc).length := by
    intro fuel done acc all
    have appended : acc <+: readLoop w i offset len fuel done acc := readLoop_appends w fuel done acc
    exact all.trans appended.length_le
  induction fuel generalizing done acc with
  | zero => exact kept (by omega)
  | succ fuel ih =>
    by_cases all : m ≤ acc.length
    · exact kept all
    · obtain ⟨part, pos, -, next, round⟩ := @readLoop_round w i offset len done fuel acc (by omega)
        (by omega) (readable _ (by omega))
      rw [round]
      exact ih (by omega) (by rw [List.length_append, count, next])

/-- The loop stops at the end of a file that ends with its last block. -/
theorem readLoop_stops {n : Nat} (whole : n % 512 = 0) (small : n < 4294967296)
    (ends : ¬w.Readable i (n / 512)) (inside : offset.toNat + done.toNat ≤ n)
    (count : acc.length = done.toNat) :
    offset.toNat + (readLoop w i offset len fuel done acc).length ≤ n := by
  induction fuel generalizing done acc with
  | zero =>
    rw [readLoop]
    omega
  | succ fuel ih =>
    by_cases more : done.toNat < len.toNat
    · by_cases here : w.Readable i ((offset.toNat + done.toNat) / 512)
      · have before : offset.toNat + done.toNat ≠ n := by
          intro same
          rw [same] at here
          exact ends here
        obtain ⟨part, -, length, next, round⟩ :=
          @readLoop_round w i offset len done fuel acc more (by omega) here
        rw [round]
        exact ih (by omega) (by rw [List.length_append, count, next])
      · have sum : (offset + done).toNat = offset.toNat + done.toNat := by
          rw [UInt32.toNat_add]
          omega
        rw [readLoop, if_neg (not_not.mpr (UInt32.lt_iff_toNat_lt.mpr more))]
        dsimp only
        split
        · omega
        · rename_i phys found
          split
          · omega
          · rename_i sec read
            refine absurd ?_ here
            rw [World.Readable, ← sum, show (512 : Nat) = blockSize from rfl, found]
            exact Option.isSome_iff_exists.mpr ⟨sec, read⟩
    · rw [readLoop, if_pos fun less => more (UInt32.lt_iff_toNat_lt.mp less)]
      omega

end Loop

/-! ### Reads -/

/-- **An exact read** of a file of `n` bytes: what is there of the bytes asked for, and no byte
from behind the end. -/
structure Exact (n offset len : Nat) (r : Int × List UInt8) : Prop where
  count : r.1 = ((if offset < n then min len (n - offset) else 0 : Nat) : Int)
  copied : ∀ k < r.2.length, offset + k < n

/-- The read starts behind the end, or `offset + len` does not wrap, or the file ends with a
block and the block map with the file. -/
def World.Unwrapped (w : World) (i : Fin 256) (offset len : UInt32) : Prop :=
  (w.catfs.inodes i).size ≤ offset ∨ offset.toNat + len.toNat < 4294967296 ∨
    ((w.catfs.inodes i).size.toNat % 512 = 0 ∧
      ¬w.Readable i ((w.catfs.inodes i).size.toNat / 512))

section Reads

variable {w : World} {idx : Int} {i : Fin 256} {offset len : UInt32}

/-- A length that is cut, or need not be, is returned. -/
theorem exact_of_cut (inside : offset.toNat < (w.catfs.inodes i).size.toNat)
    (allocated : ∀ k < (w.catfs.inodes i).size.toNat, w.Readable i (k / 512))
    (nowrap : offset.toNat + len.toNat < 4294967296) {cut : UInt32}
    (cut_ : cut = if offset + len > (w.catfs.inodes i).size then
      (w.catfs.inodes i).size - offset else len) :
    Exact (w.catfs.inodes i).size.toNat offset.toNat len.toNat
      ((readLoop w i offset cut cut.toNat 0 []).length, readLoop w i offset cut cut.toNat 0 []) := by
  have sum : (offset + len).toNat = offset.toNat + len.toNat := by
    rw [UInt32.toNat_add]
    omega
  have length : cut.toNat = min len.toNat ((w.catfs.inodes i).size.toNat - offset.toNat) := by
    rw [cut_, apply_ite UInt32.toNat, UInt32.toNat_sub_of_le _ _
      (UInt32.le_iff_toNat_le.mpr (Nat.le_of_lt inside))]
    simp only [gt_iff_lt, UInt32.lt_iff_toNat_lt, sum]
    split <;> omega
  have zero : (0 : UInt32).toNat = 0 := rfl
  have top := (w.catfs.inodes i).size.toNat_lt
  have most := @length_readLoop_le i offset cut w cut.toNat 0 [] rfl (Nat.zero_le _)
  have least := @readLoop_reaches w i offset cut 0 cut.toNat [] cut.toNat le_rfl (by omega)
    (fun k less => allocated _ (by omega)) (by omega) rfl
  refine ⟨?_, fun k less => ?_⟩
  · rw [if_pos inside]
    dsimp only
    omega
  · dsimp only at less
    omega

/-- A length that is not cut because the sum wraps is the rest of the file where the loop runs
into the end of the block map there. -/
theorem exact_of_wrap (inside : offset.toNat < (w.catfs.inodes i).size.toNat)
    (allocated : ∀ k < (w.catfs.inodes i).size.toNat, w.Readable i (k / 512))
    (wraps : 4294967296 ≤ offset.toNat + len.toNat) :
    Exact (w.catfs.inodes i).size.toNat offset.toNat len.toNat
        ((readLoop w i offset len len.toNat 0 []).length, readLoop w i offset len len.toNat 0 []) ↔
      ((w.catfs.inodes i).size.toNat % 512 = 0 ∧
        ¬w.Readable i ((w.catfs.inodes i).size.toNat / 512)) := by
  have top := (w.catfs.inodes i).size.toNat_lt
  generalize (w.catfs.inodes i).size.toNat = n at *
  have zero : (0 : UInt32).toNat = 0 := rfl
  constructor
  · intro exact_
    by_contra more
    have behind : w.Readable i (n / 512) := by
      by_cases whole : n % 512 = 0
      · exact of_not_not fun none_ => more ⟨whole, none_⟩
      · have last := allocated (n - 1) (by omega)
        rwa [show (n - 1) / 512 = n / 512 by omega] at last
    have least := @readLoop_reaches w i offset len 0 len.toNat [] (n - offset.toNat + 1) (by omega)
      (by omega) (fun k less => ?_) (by omega) rfl
    · have beyond := exact_.copied (n - offset.toNat) (by dsimp only; omega)
      omega
    · by_cases last : offset.toNat + k = n
      · rw [last]
        exact behind
      · exact allocated _ (by omega)
  · rintro ⟨whole, ends⟩
    have least := @readLoop_reaches w i offset len 0 len.toNat [] (n - offset.toNat) (by omega)
      (by omega) (fun k less => allocated _ (by omega)) (by omega) rfl
    have most := @readLoop_stops w i offset len 0 len.toNat [] n whole (by omega) ends (by omega) rfl
    refine ⟨?_, fun k less => ?_⟩
    · rw [if_pos inside]
      dsimp only
      omega
    · dsimp only at less
      omega

/-- `catfs_read` of a file all of whose bytes are mapped. -/
theorem catfsRead_exact (mounted : w.catfs.mounted = true) (at_ : inodeIdx idx = some i)
    (live : (w.catfs.inodes i).type ≠ typeFree)
    (allocated : ∀ k < (w.catfs.inodes i).size.toNat, w.Readable i (k / 512)) (now : UInt32) :
    Exact (w.catfs.inodes i).size.toNat offset.toNat len.toNat (catfsRead w idx offset len now).2 ↔
      w.Unwrapped i offset len := by
  unfold catfsRead
  rw [if_neg (by simp [mounted])]
  simp only [at_, live, if_false]
  by_cases past : offset ≥ (w.catfs.inodes i).size
  · rw [if_pos past]
    have behind := UInt32.le_iff_toNat_le.mp past
    refine iff_of_true ⟨?_, nofun⟩ (.inl past)
    rw [if_neg (Nat.not_lt_of_le behind)]
    rfl
  rw [if_neg past]
  have inside : offset.toNat < (w.catfs.inodes i).size.toNat :=
    Nat.lt_of_not_le fun le => past (UInt32.le_iff_toNat_le.mpr le)
  by_cases nowrap : offset.toNat + len.toNat < 4294967296
  · exact iff_of_true (exact_of_cut inside allocated nowrap rfl) (.inr (.inl nowrap))
  · have kept : ¬offset + len > (w.catfs.inodes i).size := by
      rw [gt_iff_lt, UInt32.lt_iff_toNat_lt, UInt32.toNat_add]
      have := offset.toNat_lt
      have := len.toNat_lt
      omega
    rw [if_neg kept, exact_of_wrap inside allocated (Nat.le_of_not_lt nowrap), World.Unwrapped]
    constructor
    · exact fun ends => .inr (.inr ends)
    · rintro (behind | less | ends)
      · exact absurd behind past
      · exact absurd less nowrap
      · exact ends

/-- **Read bounds.** For a file all of whose bytes are in blocks that can be read, `catfs_read`,
and `vfs_read` of a descriptor that may be read, are exact just where the sum of the offset and
the length is harmless. -/
theorem read_bounds (mounted : w.catfs.mounted = true) (at_ : inodeIdx idx = some i)
    (live : (w.catfs.inodes i).type ≠ typeFree)
    (allocated : ∀ k < (w.catfs.inodes i).size.toNat, w.Readable i (k / 512))
    (offset len now : UInt32) :
    (Exact (w.catfs.inodes i).size.toNat offset.toNat len.toNat (catfsRead w idx offset len now).2 ↔
      w.Unwrapped i offset len) ∧
    ∀ flags, flags &&& oAccmode ≠ oWronly →
      (Exact (w.catfs.inodes i).size.toNat offset.toNat len.toNat
          (vfsRead w (some ⟨flags, offset.toNat, i.val + 1⟩) true len.toNat now).2 ↔
        w.Unwrapped i offset len) := by
  refine ⟨catfsRead_exact mounted at_ live allocated now, fun flags readable => ?_⟩
  have index : catfsVfsIndex (i.val + 1) = i.val := by
    rw [catfsVfsIndex, if_neg (Nat.succ_ne_zero _)]
    omega
  have here := inodeIdx_val i
  have offset_ : ¬offset.toNat > 0xFFFFFFFF := by
    have := offset.toNat_lt
    omega
  have len_ : ¬len.toNat > 0xFFFFFFFF := by
    have := len.toNat_lt
    omega
  have same : (vfsRead w (some ⟨flags, offset.toNat, i.val + 1⟩) true len.toNat now).2 =
      (catfsRead w i.val offset len now).2 := by
    unfold vfsRead catfsVfsRead
    dsimp only
    rw [if_neg (by simp [readable]), index, if_neg (by omega), UInt32.ofNat_toNat, UInt32.ofNat_toNat]
  rw [same]
  exact catfsRead_exact mounted here live allocated now

end Reads

/-- A volume with a file of two bytes. -/
def twoBytes : World := (catfsWrite createdWorld 1 0 (fun _ => 0x41) 2 0).1

theorem twoBytes_size : (twoBytes.catfs.inodes 1).size = 2 := by decide +kernel

theorem twoBytes_mapped : ∀ k < (twoBytes.catfs.inodes 1).size.toNat, twoBytes.Readable 1 (k / 512) := by
  have first : twoBytes.Readable 1 0 := by decide +kernel
  intro k less
  rw [twoBytes_size] at less
  have none_ : k / 512 = 0 := Nat.div_eq_of_lt (less.trans (by decide))
  exact (congrArg (twoBytes.Readable 1) none_).mpr first

/-- The second byte of a file of two, with a length of 100. -/
theorem read_bounds_one :
    Exact (twoBytes.catfs.inodes 1).size.toNat (1 : UInt32).toNat (100 : UInt32).toNat
      (catfsRead twoBytes 1 1 100 0).2 := by
  have mounted : twoBytes.catfs.mounted = true := by decide +kernel
  have live : (twoBytes.catfs.inodes 1).type ≠ typeFree := by decide +kernel
  have at_ : inodeIdx 1 = some 1 := rfl
  exact (read_bounds mounted at_ live twoBytes_mapped 1 100 0).1.mpr (.inr (.inl (by decide)))

/-- **A length of 2^32 - 1** from the second byte of a file of two: the sum is 0, and what is
returned is all of the block behind the first byte. -/
theorem wrapped_read : (catfsRead twoBytes 1 1 0xFFFFFFFF 0).2.1 = 511 ∧
    ¬Exact (twoBytes.catfs.inodes 1).size.toNat 1 0xFFFFFFFF
      (catfsRead twoBytes 1 1 0xFFFFFFFF 0).2 := by
  have count : (catfsRead twoBytes 1 1 0xFFFFFFFF 0).2.1 = 511 := by decide +kernel
  refine ⟨count, fun exact_ => ?_⟩
  have one := exact_.count
  rw [count, twoBytes_size] at one
  exact absurd one (by decide)

end AtmKoala.Catfs
