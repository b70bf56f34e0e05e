import AtmKoala.Ext2.Inodes

/-!
Reading a file of an ext2 volume: where it gives the contents of the file.

* The format: a pointer to a block of pointers stands for a tree (`below`), a pointer that is 0
  for a hole, and the contents of a file (`contentOf`) are zeros in its holes.
* `fileBlock_yields`: the code follows the four kinds of pointers as the format does.
* `readLoop_yields`: the loop of `inode_read_range` ends at the first hole, where the loops over
  directories go on with the next block.
-/

namespace AtmKoala.Ext2

open Lib Lib.Io Partmgr
open Catfs (World)

/-! ### The format -/

section Format

variable (img : Nat → UInt8)

/-- The number of pointers in a block. -/
def perBlockOf : Nat := blockSizeOf img / 4

/-- Pointer `k` in the block `a` of pointers; a block that is not there has none. -/
def childOf (a : UInt32) (k : Nat) : UInt32 :=
  if a = 0 then 0 else u32At img (a.toNat * blockSizeOf img + k * 4)

/-- Block `p` of a tree of pointers of the given depth. -/
def below : Nat → UInt32 → Nat → UInt32
  | 0, a, _ => a
  | d + 1, a, p => below d (childOf img a (p / perBlockOf img ^ d)) (p % perBlockOf img ^ d)

/-- The pointers of a tree lead to blocks of the volume, or are 0. -/
def Below : Nat → UInt32 → Prop
  | 0, a => a ≠ 0 → a.toNat < blocksCountOf img
  | d + 1, a => (a ≠ 0 → a.toNat < blocksCountOf img) ∧
      ∀ k, k < perBlockOf img → Below d (childOf img a k)

/-- The block of a file behind its logical block: 12 direct ones, then trees of depth 1 to 3. -/
def pointerOf (f : Inode) (logical : Nat) : UInt32 :=
  let n := perBlockOf img
  if logical < 12 then f.block (Fin.ofNat 15 logical)
  else if logical - 12 < n then below img 1 (f.block 12) (logical - 12)
  else if logical - 12 - n < n ^ 2 then below img 2 (f.block 13) (logical - 12 - n)
  else below img 3 (f.block 14) (logical - 12 - n - n ^ 2)

/-- An inode whose pointers lead to blocks of the volume. -/
structure WellFormed (f : Inode) : Prop where
  direct : ∀ i : Fin 15, i.val < 12 → Below img 0 (f.block i)
  single : Below img 1 (f.block 12)
  double : Below img 2 (f.block 13)
  triple : Below img 3 (f.block 14)

/-- Byte `i` of a file. -/
def contentOf (f : Inode) (i : Nat) : UInt8 :=
  let b := pointerOf img f (i / blockSizeOf img)
  if b = 0 then 0 else img (b.toNat * blockSizeOf img + i % blockSizeOf img)

/-- The `m` bytes of a file from `offset` on. -/
def contents (f : Inode) (offset m : Nat) : Bytes :=
  (List.range m).map fun k => contentOf img f (offset + k)

variable {img}

theorem contents_add (f : Inode) (offset a c : Nat) :
    contents img f offset (a + c) = contents img f offset a ++ contents img f (offset + a) c := by
  unfold contents
  rw [List.range_add, List.map_append, List.map_map]
  congr 1
  exact List.map_congr_left fun k _ => by rw [Function.comp_apply, Nat.add_assoc]

theorem contents_length (f : Inode) (offset m : Nat) : (contents img f offset m).length = m := by
  unfold contents
  rw [List.length_map, List.length_range]

theorem Below.here {d : Nat} {a : UInt32} (tree : Below img d a) (some_ : a ≠ 0) :
    a.toNat < blocksCountOf img := by
  cases d with
  | zero => exact tree some_
  | succ d => exact tree.1 some_

/-- There is nothing below a pointer that is 0. -/
theorem below_zero (d : Nat) : Below img d 0 := by
  induction d with
  | zero => exact fun some_ => absurd rfl some_
  | succ d ih => exact ⟨fun some_ => absurd rfl some_, fun k _ => ih⟩

/-- The number of a block of a tree splits into a pointer and a block of the smaller tree. -/
theorem index_split {d p : Nat} (inside : p < perBlockOf img ^ (d + 1)) :
    p / perBlockOf img ^ d < perBlockOf img ∧ p % perBlockOf img ^ d < perBlockOf img ^ d := by
  have pos : 0 < perBlockOf img ^ d := by
    rw [Nat.pow_succ] at inside
    exact Nat.pos_of_ne_zero fun none_ => by simp [none_] at inside
  refine ⟨?_, Nat.mod_lt _ pos⟩
  rw [Nat.div_lt_iff_lt_mul pos, Nat.mul_comm, ← Nat.pow_succ]
  exact inside

theorem Below.leaf {d : Nat} {a : UInt32} (tree : Below img d a) {p : Nat}
    (inside : p < perBlockOf img ^ d) : Below img 0 (below img d a p) := by
  induction d generalizing a p with
  | zero => exact tree
  | succ d ih => exact ih (tree.2 _ (index_split inside).1) (index_split inside).2

end Format

theorem keeps_readBlock (fs : Ext2State) (b : UInt32) : Keeps (readBlock fs b) :=
  readBlock_reads (P := fun _ => True) keeps_composes (fun _ _ _ => trivial) fun _ _ _ => rfl

/-- A lookup only looks at the disk. -/
theorem keeps_ext2Lookup (fs : Ext2State) (path : Bytes) : Keeps (ext2Lookup fs path) :=
  ext2Lookup_reads keeps_composes (keeps_readBlock fs) path

/-! ### The write guard -/

theorem perform_guarded {fs : Ext2State} (closed : fs.writeEnabled = false) (op : Op)
    (shut : fs.fsState &&& 1 = 0 ∨ fs.featureCompat &&& 4 ≠ 0 ∨ op ≠ .setWriteEnabled true) (w : World) :
    (perform fs op).value w = fs ∧ (perform fs op).after w = w := by
  have read := keeps_readBlock fs
  cases op with
  | lookup path => exact ⟨rfl, keeps_ext2Lookup fs path w⟩
  | readdir path size => exact ⟨rfl, ext2Readdir_reads keeps_composes read path size w⟩
  | readfile path cap => exact ⟨rfl, ext2ReadRange_reads keeps_composes read path 0 cap w⟩
  | readRange path offset cap => exact ⟨rfl, ext2ReadRange_reads keeps_composes read path offset cap w⟩
  | readlink path cap => exact ⟨rfl, ext2Readlink_reads keeps_composes read path cap w⟩
  | writeRange path offset data =>
    have refused : ext2WriteRange fs path offset data = failure := if_pos (.inl closed)
    refine ⟨rfl, ?_⟩
    show (ext2WriteRange fs path offset data).run.after w = w
    rw [refused]
    rfl
  | setWriteEnabled enabled =>
    refine ⟨?_, rfl⟩
    show (ext2SetWriteEnabled fs enabled).1 = fs
    unfold ext2SetWriteEnabled
    split
    · rfl
    split
    · show { fs with writeEnabled := false } = fs
      rw [← closed]
    rename_i on
    obtain rfl : enabled = true := by simpa using on
    rw [if_pos (by tauto)]

/-- **Nothing is written** as long as the guard is closed, as a mount leaves it: only on a clean
volume without a journal can anybody open it. -/
theorem session_guarded (fs : Ext2State) (ops : List Op) (now : World) :
    (session fs ops).after now = now ∨ fs.writeEnabled = true ∨
      fs.fsState &&& 1 ≠ 0 ∧ fs.featureCompat &&& 4 = 0 ∧ .setWriteEnabled true ∈ ops := by
  by_contra! shut
  refine shut.1 ?_
  replace shut := shut.2
  induction ops with
  | nil => rfl
  | cons op ops ih =>
    rw [List.mem_cons, not_or] at shut
    obtain ⟨same, kept⟩ := perform_guarded (by simpa using shut.1) op (by tauto) now
    show (session ((perform fs op).value now) ops).after ((perform fs op).after now) = now
    rw [same, kept]
    exact ih (by tauto)

/-! ### The partition -/

/-- The same drives, with the same contents in the sectors of a range. -/
def Alike (drive : Int) (start count : Nat) (w w' : World) : Prop :=
  w.drives = w'.drives ∧ ∀ lba : UInt32, start ≤ lba.toNat → lba.toNat < start + count →
    w.disk (drive, lba28 lba) = w'.disk (drive, lba28 lba)

section Partition

variable {fs : Ext2State} {drive : Int} {start count : Nat}

theorem readBlock_blind (fits : Fits fs drive start count) (b : UInt32) :
    Blind (Alike drive start count) (readBlock fs b) := by
  refine readBlock_reads (blind_composes _) (fun block i less => fits.sector block less false) ?_
  intro lba inside
  refine ⟨fun _ => rfl, fun w w' alike => ?_⟩
  show diskReadSector w.drives w.disk fs.drive lba = diskReadSector w'.drives w'.disk fs.drive lba
  unfold diskReadSector
  rw [alike.1, fits.onDrive, alike.2 lba inside.2.1 inside.2.2]

/-- **What lies outside the partition** does not show: no answer depends on it. -/
theorem answers_blind (fits : Fits fs drive start count) {w w' : World}
    (alike : Alike drive start count w w') (path : Bytes) :
    (ext2Lookup fs path).run.value w = (ext2Lookup fs path).run.value w' ∧
    (∀ size, (ext2Readdir fs path size).run.value w = (ext2Readdir fs path size).run.value w') ∧
    (∀ offset cap, (ext2ReadRange fs path offset cap).run.value w =
      (ext2ReadRange fs path offset cap).run.value w') ∧
    ∀ cap, (ext2Readlink fs path cap).run.value w = (ext2Readlink fs path cap).run.value w' := by
  have composes := blind_composes (ρ := Request) (Alike drive start count)
  have read := readBlock_blind fits
  exact ⟨(ext2Lookup_reads composes read path).2 w w' alike,
    fun size => (ext2Readdir_reads composes read path size).2 w w' alike,
    fun offset cap => (ext2ReadRange_reads composes read path offset cap).2 w w' alike,
    fun cap => (ext2Readlink_reads composes read path cap).2 w w' alike⟩

end Partition

/-! ### Logical blocks -/

section Blocks

variable {w : World} {drive : Int} {e : MbrEntry} {fs : Ext2State} {img : Nat → UInt8}

theorem pointerAt_yields (serves : Serves w drive e fs img) {d k : Nat} {a : UInt32}
    (tree : Below img d a) (inside : k < perBlockOf img) :
    Yields (pointerAt fs a k) w (childOf img a k) := by
  unfold pointerAt childOf
  by_cases none_ : a = 0
  · rw [if_pos none_, if_pos none_]
    exact yields_pure _ _
  · rw [if_neg none_, if_neg none_]
    obtain ⟨f, value, after, bytes⟩ := readBlock_value serves (tree.here none_)
    have word : u32At f (k * 4) =
        u32At img (a.toNat * blockSizeOf img + k * 4) :=
      u32At_congr fun j less => by
        unfold perBlockOf at inside
        rw [bytes _ (by omega), Nat.add_assoc]
    rw [← word]
    exact Yields.bind ⟨value, after⟩ (yields_pure _ _)

/-- The way down one level of a tree. -/
theorem pointerAt_bind (serves : Serves w drive e fs img) {d p : Nat} {a : UInt32}
    (tree : Below img (d + 1) a) (inside : p < perBlockOf img ^ (d + 1))
    {next : UInt32 → Try UInt32}
    (rest : ∀ b, Below img d b →
      Yields (next b) w (below img d b (p % perBlockOf img ^ d))) :
    Yields (pointerAt fs a (p / perBlockOf img ^ d) >>= next) w
      (below img (d + 1) a p) :=
  (pointerAt_yields serves tree (index_split inside).1).bind
    (rest _ (tree.2 _ (index_split inside).1))

/-- **Logical blocks.** For an inode whose pointers are in order the code finds the block that
the format puts behind a logical block. -/
theorem fileBlock_yields (serves : Serves w drive e fs img) {f : Inode}
    (formed : WellFormed img f) {logical : UInt32}
    (inside : logical.toNat * blockSizeOf img < 2 ^ 32) :
    Yields (fileBlock fs f logical) w (pointerOf img f logical.toNat) ∧
      Below img 0 (pointerOf img f logical.toNat) := by
  have step := @pointerAt_bind w drive e fs img serves
  have last : ∀ {a : UInt32} {p : Nat}, Below img 1 a →
      p < perBlockOf img ^ 1 →
      Yields (pointerAt fs a p) w (below img 1 a p) := by
    intro a p tree small
    unfold below below
    rw [pow_zero, Nat.div_one]
    exact pointerAt_yields serves tree (by rwa [pow_one] at small)
  have low := serves.geometry.blockSizeLow
  have many : 256 ≤ perBlockOf img := by
    unfold perBlockOf
    omega
  have size : fs.blockSize.toNat / 4 = perBlockOf img := by
    rw [serves.geometry.blockSize]
    rfl
  have few : logical.toNat < 2 ^ 22 := Nat.lt_of_mul_lt_mul_right (a := 1024)
    (lt_of_le_of_lt (Nat.mul_le_mul_left _ low) inside)
  have cubes := Nat.pow_le_pow_left many 3
  have same : ∀ {l : Nat} (direct : l < 15), (⟨l, direct⟩ : Fin 15) = Fin.ofNat 15 l :=
    fun direct => Fin.ext (Nat.mod_eq_of_lt direct).symm
  unfold fileBlock pointerOf
  dsimp only
  rw [size, ← pow_two, ← pow_succ, if_neg (by omega)]
  by_cases direct : logical.toNat < 12
  · rw [dif_pos direct, if_pos direct, same]
    exact ⟨yields_pure _ _, formed.direct _ (by rw [← same (by omega)]; exact direct)⟩
  rw [dif_neg direct, if_neg direct]
  by_cases single : logical.toNat - 12 < perBlockOf img
  · rw [if_pos single, if_pos single]
    rw [← pow_one (perBlockOf _)] at single
    exact ⟨last formed.single single, formed.single.leaf single⟩
  rw [if_neg single, if_neg single]
  by_cases double : logical.toNat - 12 - perBlockOf img < perBlockOf img ^ 2
  · rw [if_pos double, if_pos double]
    refine ⟨?_, formed.double.leaf double⟩
    have found := step formed.double double fun b tree => last tree (index_split double).2
    rw [pow_one] at found
    exact found
  have triple : logical.toNat - 12 - perBlockOf img - perBlockOf img ^ 2 <
      perBlockOf img ^ 3 := by omega
  rw [if_neg double, if_neg double, if_pos triple]
  refine ⟨?_, formed.triple.leaf triple⟩
  have found := step formed.triple triple fun b tree =>
    step tree (index_split triple).2 fun c small => last small (index_split (index_split triple).2).2
  rw [pow_one] at found
  exact found

/-- The block of a byte of a file, and its place in it. -/
theorem place_eq {size i bi skip : Nat} (place : bi * size + skip = i) (small : skip < size) :
    i / size = bi ∧ i % size = skip := by
  rw [← place, Nat.mul_comm]
  exact ⟨by rw [Nat.mul_add_div (by omega), Nat.div_eq_of_lt small, Nat.add_zero],
    by rw [Nat.mul_add_mod, Nat.mod_eq_of_lt small]⟩

/-- The loop ends at the first hole: there are `m` bytes before it. -/
theorem readLoop_yields (serves : Serves w drive e fs img) {f : Inode}
    (formed : WellFormed img f) (offset cap fuel done : Nat) (bi : UInt32)
    (skip : Nat) {total : Nat} (whole : total = min cap (f.size.toNat - offset)) (part : done ≤ total)
    (enough : total ≤ done + fuel)
    (place : done < total → bi.toNat * blockSizeOf img + skip = offset + done ∧
      skip < blockSizeOf img) :
    ∃ m, done ≤ m ∧ m ≤ total ∧
      Yields (readLoop fs f offset cap fuel (contents img f offset done) bi skip) w
        (contents img f offset m) ∧
      (∀ k, done ≤ k → k < m →
        pointerOf img f ((offset + k) / blockSizeOf img) ≠ 0) ∧
      (m < total → pointerOf img f ((offset + m) / blockSizeOf img) = 0) := by
  have size := f.size.toNat_lt
  have low := serves.geometry.blockSizeLow
  induction fuel generalizing done bi skip with
  | zero => exact ⟨done, le_rfl, part, yields_pure _ _, by omega, by omega⟩
  | succ fuel ih =>
    unfold readLoop
    rw [contents_length]
    by_cases more : done < total
    · obtain ⟨here, inBlock⟩ := place more
      rw [if_pos (by omega)]
      have inside : bi.toNat * blockSizeOf img < 2 ^ 32 := by omega
      have block := (place_eq here inBlock).1
      obtain ⟨pointer, onVolume⟩ := fileBlock_yields serves formed inside
      by_cases hole : pointerOf img f bi.toNat = 0
      · refine ⟨done, le_rfl, part, pointer.bind ?_, by omega, fun _ => by rw [block, hole]⟩
        rw [if_pos hole]
        exact yields_pure _ _
      · obtain ⟨b, value, after, bytes⟩ := readBlock_value serves (onVolume hole)
        obtain ⟨count, counted⟩ : ∃ count, count = min (fs.blockSize.toNat - skip)
          (min (f.size.toNat - (offset + done)) (cap - done)) := ⟨_, rfl⟩
        rw [serves.geometry.blockSize] at counted
        have inRange : ∀ k, k < count →
            (offset + done + k) / blockSizeOf img = bi.toNat ∧
            (offset + done + k) % blockSizeOf img = skip + k :=
          fun k less => place_eq (by omega) (by omega)
        have copied : (List.range count).map (fun k => b (skip + k)) =
            contents img f (offset + done) count := by
          refine List.map_congr_left fun k less => ?_
          have less := List.mem_range.mp less
          unfold contentOf
          rw [(inRange k less).1, (inRange k less).2, if_neg hole, bytes _ (by omega)]
        obtain ⟨m, first, last, rest, filled, stop⟩ := ih (done + count) (bi + 1) 0
          (by omega) (by omega) fun more => by
            have next : (bi + 1).toNat = bi.toNat + 1 := by
              have one : (1 : UInt32).toNat = 1 := rfl
              have few : bi.toNat < 2 ^ 22 := Nat.lt_of_mul_lt_mul_right (a := 1024)
                (lt_of_le_of_lt (Nat.mul_le_mul_left _ low) inside)
              rw [UInt32.toNat_add, one]
              omega
            rw [next, Nat.succ_mul]
            omega
        refine ⟨m, by omega, last, pointer.bind ?_, fun k from_ less => ?_, stop⟩
        · rw [if_neg hole]
          refine Yields.bind ⟨value, after⟩ ?_
          dsimp only
          rw [serves.geometry.blockSize, ← counted, copied, ← contents_add]
          exact rest
        · by_cases later : done + count ≤ k
          · exact filled k later less
          · have same := (inRange (k - done) (by omega)).1
            rw [show offset + done + (k - done) = offset + k by omega] at same
            rwa [same]
    · rw [if_neg (by omega)]
      exact ⟨done, le_rfl, part, yields_pure _ _, by omega, by omega⟩

end Blocks

/-! ### Whole reads -/

/-- **Reading a range.** Where a path leads to a regular file whose pointers are in order,
`ext2_read_range` returns the bytes of the range if and only if none of them lies in a hole. -/
theorem read_range_iff {behind : Nat → UInt8} {drive part : Int} {w : World} {fs : Ext2State}
    (mounted : (ext2MountPartition behind drive part).run.value w = some fs) {i : Fin 4}
    (this : (i.val : Int) = part)
    (format : Conforming (image w drive ((mbrRead w drive mbrInitEmpty).1.entries i)))
    (readable : Readable w drive ((mbrRead w drive mbrInitEmpty).1.entries i)) {path : Bytes}
    {f : Inode} {type : UInt8} (found : (ext2Lookup fs path).run.value w = some (f, type))
    (regular : f.mode &&& ifMask = ifReg)
    (formed : WellFormed (image w drive ((mbrRead w drive mbrInitEmpty).1.entries i)) f)
    (offset : UInt32) (cap : Nat) :
    (ext2ReadRange fs path offset cap).run.value w =
        some (contents (image w drive ((mbrRead w drive mbrInitEmpty).1.entries i)) f offset.toNat
          (min cap (f.size.toNat - offset.toNat))) ↔
      ∀ k, k < min cap (f.size.toNat - offset.toNat) →
        pointerOf (image w drive ((mbrRead w drive mbrInitEmpty).1.entries i)) f
          ((offset.toNat + k) /
            blockSizeOf (image w drive ((mbrRead w drive mbrInitEmpty).1.entries i))) ≠ 0 := by
  have serves := serves_of_mount mounted this format readable
  generalize (mbrRead w drive mbrInitEmpty).1.entries i = e at *
  have low := serves.geometry.blockSizeLow
  obtain ⟨m, -, part, read, filled, stop⟩ := readLoop_yields serves formed
    offset.toNat cap cap 0 (offset / fs.blockSize) (offset % fs.blockSize).toNat rfl (Nat.zero_le _) (by omega) fun _ => by
      rw [UInt32.toNat_div, UInt32.toNat_mod, serves.geometry.blockSize]
      exact ⟨Nat.div_add_mod' _ _, Nat.mod_lt _ (by omega)⟩
  have returned : (ext2ReadRange fs path offset cap).run.value w =
      some (contents (image w drive e) f offset.toNat m) := by
    unfold ext2ReadRange inodeReadRange
    rw [value_bind_of_some found, keeps_ext2Lookup]
    dsimp only
    rw [if_neg (not_not.mpr regular)]
    by_cases beyond : offset ≥ f.size
    · have end_ := UInt32.le_iff_toNat_le.mp beyond
      obtain rfl : m = 0 := by omega
      rw [if_pos beyond]
      rfl
    · rw [if_neg beyond]
      exact read.1
  rw [returned, Option.some_inj]
  constructor
  · intro same k less
    have length := congrArg List.length same
    rw [contents_length, contents_length] at length
    exact filled k (Nat.zero_le k) (by omega)
  · intro solid
    obtain rfl : m = min cap (f.size.toNat - offset.toNat) := by
      by_contra short
      exact solid m (by omega) (stop (by omega))
    rfl

/-! ### A file with a hole -/

/-- The root directory, at block 20, and inode 3: a file of 1025 bytes with its second block,
block 21, only. -/
def sparseInodes : Nat → UInt8
  | 129 => 0x41
  | 133 => 0x04
  | 168 => 20
  | 256 => 0xA4
  | 257 => 0x81
  | 260 => 0x01
  | 261 => 0x04
  | 300 => 21
  | _ => 0

/-- The file is called "a". -/
def sparseEntry : Nat → UInt8
  | 0 => 3
  | 5 => 4
  | 6 => 1
  | 7 => 1
  | 8 => 97
  | _ => 0

def sparse : World :=
  { twoGroups with
    disk := fun at' =>
      if at'.2 = 84 then sectorOf sparseInodes
      else if at'.2 = 104 then sectorOf sparseEntry
      else if at'.2 = 106 then sectorOf fun _ => 7
      else twoGroups.disk at' }

theorem sparse_mounts : ((ext2MountPartition (fun _ => 0) 0 0).run.value sparse).isSome = true := by
  decide

def sparseState : Ext2State := ((ext2MountPartition (fun _ => 0) 0 0).run.value sparse).get sparse_mounts

theorem sparse_leads : ((ext2Lookup sparseState [47, 97]).run.value sparse).isSome = true := by
  decide +kernel

def sparseFile : Inode × UInt8 := ((ext2Lookup sparseState [47, 97]).run.value sparse).get sparse_leads

def sparsePart : MbrEntry := (mbrRead sparse 0 mbrInitEmpty).1.entries 0

theorem sparse_conforming : Conforming (image sparse 0 sparsePart) where
  logBlockSize := by decide
  firstDataBlock := by decide
  blocksPerGroup := by decide
  inodesPerGroup := by decide
  inodesCount := by decide
  descriptors := by decide
  tables := by
    rw [show groupsOf (image sparse 0 sparsePart) = 2 by decide]
    decide

theorem sparse_formed : WellFormed (image sparse 0 sparsePart) sparseFile.1 where
  direct := by
    unfold Below
    decide +kernel
  single := by
    rw [show sparseFile.1.block 12 = 0 by decide +kernel]
    exact below_zero 1
  double := by
    rw [show sparseFile.1.block 13 = 0 by decide +kernel]
    exact below_zero 2
  triple := by
    rw [show sparseFile.1.block 14 = 0 by decide +kernel]
    exact below_zero 3

/-- The read that starts in the hole comes back with nothing. -/
theorem hole_ends_read : Conforming (image sparse 0 sparsePart) ∧
    (ext2Lookup sparseState [47, 97]).run.value sparse = some sparseFile ∧
    sparseFile.1.mode &&& ifMask = ifReg ∧ WellFormed (image sparse 0 sparsePart) sparseFile.1 ∧
    (ext2ReadRange sparseState [47, 97] 1020 5).run.value sparse = some [] ∧
    contents (image sparse 0 sparsePart) sparseFile.1 1020 (min 5 (sparseFile.1.size.toNat - 1020)) =
      [0, 0, 0, 0, 7] :=
  ⟨sparse_conforming, (Option.some_get sparse_leads).symm, by decide +kernel, sparse_formed,
    by decide +kernel, by decide +kernel⟩

theorem read_range_iff_behind :
    (ext2ReadRange sparseState [47, 97] 1024 1).run.value sparse =
        some (contents (image sparse 0 sparsePart) sparseFile.1 (1024 : UInt32).toNat
          (min 1 (sparseFile.1.size.toNat - (1024 : UInt32).toNat))) ↔
      ∀ k, k < min 1 (sparseFile.1.size.toNat - (1024 : UInt32).toNat) →
        pointerOf (image sparse 0 sparsePart) sparseFile.1
          (((1024 : UInt32).toNat + k) / blockSizeOf (image sparse 0 sparsePart)) ≠ 0 :=
  read_range_iff (Option.some_get sparse_mounts).symm rfl sparse_conforming
    (fun _ _ => ⟨by decide, by decide, rfl, rfl⟩) (Option.some_get sparse_leads).symm
    (by decide +kernel) sparse_formed 1024 1

theorem answers_blind_other :
    (ext2Lookup sparseState [47, 97]).run.value sparse = (ext2Lookup sparseState [47, 97]).run.value
      { sparse with disk := Function.update sparse.disk (1, 0) (Block.zero 512) } := by
  refine (@answers_blind sparseState 0 64 40000 ?_ sparse _ ⟨?_, fun _ _ _ => ?_⟩ [47, 97]).1
  · exact ⟨by decide +kernel, by decide +kernel, by decide +kernel, by decide⟩
  · rfl
  · simp

end AtmKoala.Ext2
