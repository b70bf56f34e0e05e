import Mathlib.Data.Finset.Union
import AtmKoala.Catfs.Agree

/-!
File contents as byte arrays.

`Holds w i xs` says that inode `i` stores the bytes `xs`: its size is their
number, all of them lie in allocated blocks, and these blocks have them. The
effect of the operations on it is that of the obvious operations on byte arrays
(`Op.files`), as long as nothing leaves a hole (`Op.Fits`): no write starts
behind the end of the file and no truncation makes it longer.

* `holds_other`: no operation changes the bytes of an inode it does not target;
* `holds_step`: an operation that fits changes its target as `Op.files` says;
* `run_contents`: with enough free blocks, reads return the bytes of the arrays;
* `run_isolated`: even when blocks run out, a read returns only bytes that were
  written to the same file and not cut off.
-/

namespace AtmKoala.Catfs

open Lib
open Function (update_of_ne update_self)

/-- Inode `i` stores the bytes `xs`. -/
structure Holds (w : World) (i : Fin 256) (xs : List UInt8) : Prop where
  size : (w.catfs.inodes i).size.toNat = xs.length
  mapped : ∀ k, k < xs.length → w.fileBlock i (k / 512) ≠ 0
  bytes : ∀ k, k < xs.length → xs[k]? = some (w.byte i k)

/-! ### Frames -/

/-- The same size and the same bytes below it. -/
theorem Holds.congr {w v : World} {i : Fin 256} {xs : List UInt8} (h : Holds w i xs)
    (size : (v.catfs.inodes i).size = (w.catfs.inodes i).size)
    (same : ∀ k, k < xs.length → w.fileBlock i (k / 512) ≠ 0 →
      v.fileBlock i (k / 512) = w.fileBlock i (k / 512) ∧ v.byte i k = w.byte i k) :
    Holds v i xs where
  size := by rw [size, h.size]
  mapped := by
    intro k hk
    rw [(same k hk (h.mapped k hk)).1]
    exact h.mapped k hk
  bytes := by
    intro k hk
    rw [(same k hk (h.mapped k hk)).2]
    exact h.bytes k hk

/-- A byte depends on the block it lies in. -/
theorem byte_congr {w v : World} {i : Fin 256} {k : Nat}
    (block : v.fileBlock i (k / 512) = w.fileBlock i (k / 512))
    (content : blockOf v.sector (w.fileBlock i (k / 512)) =
      blockOf w.sector (w.fileBlock i (k / 512))) :
    v.fileBlock i (k / 512) = w.fileBlock i (k / 512) ∧ v.byte i k = w.byte i k := by
  refine ⟨block, ?_⟩
  unfold World.byte
  rw [block, content]

theorem fileBlock_congr {w v : World} {i j : Fin 256} {blk : Nat}
    (same : v.slots (j, dataPos blk) = w.slots (i, dataPos blk)) :
    v.fileBlock j blk = w.fileBlock i blk := by
  unfold World.fileBlock
  rw [same]

/-- Unmoved blocks with unchanged contents. -/
theorem Holds.of_slots {w v : World} {i : Fin 256} {xs : List UInt8} (h : Holds w i xs)
    (size : (v.catfs.inodes i).size = (w.catfs.inodes i).size) (slots : v.slots = w.slots)
    (blocks : blockOf v.sector = blockOf w.sector) : Holds v i xs :=
  h.congr size fun _ _ _ => byte_congr (fileBlock_congr (congrFun slots _)) (by rw [blocks])

/-- A data block of one inode is no block of another. -/
theorem fileBlock_ne {w : World} (owned : w.Owned) {i j : Fin 256} {blk : Nat} {q : Pos}
    (mapped : w.fileBlock j blk ≠ 0) (apart : (i, q) ≠ (j, dataPos blk)) :
    w.slots (i, q) ≠ w.fileBlock j blk := by
  have small := World.lt_of_fileBlock mapped
  rw [World.fileBlock_of_lt _ _ small] at mapped ⊢
  exact owned.alone (k := (j, dataPos blk)) (l := (i, q)) mapped apart

/-- Growing one inode leaves the bytes of the others. -/
theorem Grows.holds_other {w w' : World} {i j : Fin 256} {xs : List UInt8} (grows : Grows i w w')
    (owned : w.Owned) (other : j ≠ i) (h : Holds w j xs) : Holds w' j xs := by
  refine h.congr (by rw [grows.only.others j other]) fun k _ mapped => ?_
  refine byte_congr (fileBlock_congr (grows.others other _)) (grows.keeps ?_ fun q _ => ?_)
  · rw [World.fileBlock_of_lt _ _ (World.lt_of_fileBlock mapped)]
    exact owned.ledger.marked_of (j, dataPos (k / 512))
  · refine fileBlock_ne owned mapped fun same => ?_
    exact other (Prod.ext_iff.mp same).1.symm

/-- From the record of a journaled change on, only the places it gives back lose
their bytes. -/
theorem Journaled.byte_eq {i j : Fin 256} {D : Pos → Prop} {n : Inode} {w w₁ w₂ w' : World}
    (change : Journaled i D n w w₁ w₂ w') (owned : w.Owned) {k : Nat}
    (mapped : w₁.fileBlock j (k / 512) ≠ 0) (keeps : j = i → ¬D (dataPos (k / 512))) :
    w'.fileBlock j (k / 512) = w₁.fileBlock j (k / 512) ∧ w'.byte j k = w₁.byte j k := by
  obtain ⟨r, -, -, drops⟩ := change.record
  have owned₁ := change.grows.owned owned
  obtain ⟨-, logged⟩ := owned_logging owned₁ w.catfs.ringSlot r
  have held : w'.slots (j, dataPos (k / 512)) = w₁.slots (j, dataPos (k / 512)) := by
    rw [(change.owned owned).2, ← logged]
    by_cases hj : j = i
    · subst hj
      exact drops.kept _ (keeps rfl)
    · exact drops.others j hj _
  refine byte_congr (fileBlock_congr held) ?_
  rw [change.blockOf_eq, drops.keeps, blockOf_logging]
  intro q hq _
  rw [logged]
  refine fileBlock_ne owned₁ mapped fun same => ?_
  obtain rfl : q = dataPos (k / 512) := (Prod.ext_iff.mp same).2
  rw [isPtr_dataPos] at hq
  cases hq

/-- **Others.** An operation leaves the bytes of every inode that it does not
target, whatever it does to its target. -/
theorem holds_other {w w' : World} {op : Op} {j : Fin 256} {xs : List UInt8} (sound : Sound w)
    (step : Step w op w') (other : op.target w ≠ some j) (h : Holds w j xs) : Holds w' j xs := by
  cases step_cases sound.ready sound.owned step with
  | same _ => exact h
  | touched i now _ =>
    refine h.of_slots ?_ (owned_touch sound.owned i now).2 rfl
    by_cases hj : j = i
    · subst hj
      simp [World.mapInode, World.mapCatfs]
    · simp [World.mapInode, World.mapCatfs, hj]
  | synced _ => exact h.of_slots rfl (owned_sync sound.owned).2 (blockOf_sync w)
  | @stranded i _ _ _ grows idle =>
    by_cases hj : j = i
    · subst hj
      have size := grows.only.size_eq j
      exact h.congr size fun k _ mapped => ⟨grows.fileBlock mapped, idle k mapped⟩
    · exact grows.holds_other sound.owned hj h
  | @journaled i D n w₁ w₂ _ target change _ _ _ =>
    have ne : j ≠ i := by
      rintro rfl
      exact other target
    have grown := change.grows.holds_other sound.owned ne h
    refine grown.congr ?_ fun k hk mapped =>
      change.byte_eq sound.owned mapped fun eq => absurd eq ne
    rw [change.inodes_eq, if_neg ne, change.grows.only.others j ne]

/-! ### The target of an operation -/

/-- The bytes of the target after the operation; `count` is the number of bytes a
write has moved. -/
def Op.bytes (count : Nat) (xs : List UInt8) : Op → List UInt8
  | .create _ _ _ => []
  | .unlink _ => []
  | .write _ offset buf _ _ => overwrite xs offset.toNat ((List.range count).map buf)
  | .truncate _ newSize _ => xs.take newSize.toNat
  | _ => xs

/-- Operations that leave no hole: a write starts within the file or at its end,
and a truncation does not make the file longer. -/
def Op.Fits (w : World) : Op → Prop
  | .write idx offset _ _ _ => ∀ i, inodeIdx idx = some i → offset ≤ (w.catfs.inodes i).size
  | .truncate idx newSize _ => ∀ i, inodeIdx idx = some i → newSize ≤ (w.catfs.inodes i).size
  | _ => True

theorem Holds.nil {w : World} {i : Fin 256} (empty : (w.catfs.inodes i).size = 0) :
    Holds w i [] where
  size := by rw [empty]; rfl
  mapped := by simp
  bytes := by simp

/-- A file with all its bytes in blocks is no longer than the block map. -/
theorem Holds.length_le {w : World} {i : Fin 256} {xs : List UInt8} (h : Holds w i xs) :
    xs.length ≤ 8462336 := by
  by_contra long
  have := World.lt_of_fileBlock (h.mapped (xs.length - 1) (by omega))
  omega

/-- Data blocks below `first` are kept by `free_blocks_from`. -/
theorem kept_dataPos (s : Pos → UInt32) {first blk : Nat} (below : blk < first)
    (small : blk < 16528) : Kept s first (dataPos blk) := by
  unfold dataPos
  by_cases h16 : blk < 16
  · rw [dif_pos h16]
    exact below
  · rw [dif_neg h16]
    by_cases h144 : blk - 16 < 128
    · rw [dif_pos h144]
      show 16 + (blk - 16) < first
      omega
    · rw [dif_neg h144]
      show 144 + (blk - 144) / 128 % 128 * 128 + (blk - 144) % 128 < first
      omega

/-- A change that takes and gives back nothing and keeps the size. -/
theorem Journaled.holds {i : Fin 256} {n : Inode} {w w₂ w' : World} {xs : List UInt8}
    (change : Journaled i (fun _ => False) n w w w₂ w') (owned : w.Owned)
    (size : n.size = (w.catfs.inodes i).size) (h : Holds w i xs) : Holds w' i xs := by
  refine h.congr ?_ fun k _ mapped => change.byte_eq owned mapped fun _ => id
  rw [change.inodes_eq, if_pos rfl, size]

/-- A truncation that does not make the file longer cuts the bytes off. -/
theorem Journaled.holds_take {i : Fin 256} {n : Inode} {w w₂ w' : World} {xs : List UInt8}
    {newSize : UInt32} (change : Journaled i (Cut w i newSize) n w w w₂ w') (owned : w.Owned)
    (size : n.size = newSize) (fits : newSize ≤ (w.catfs.inodes i).size) (h : Holds w i xs) :
    Holds w' i (xs.take newSize.toNat) := by
  have inside : newSize.toNat ≤ xs.length := h.size ▸ UInt32.le_iff_toNat_le.mp fits
  have length : (xs.take newSize.toNat).length = newSize.toNat := by simp [inside]
  have total := h.length_le
  have same : ∀ k, k < newSize.toNat →
      w'.fileBlock i (k / 512) = w.fileBlock i (k / 512) ∧ w'.byte i k = w.byte i k := by
    intro k hk
    have mapped := h.mapped k (by omega)
    refine change.byte_eq owned mapped fun _ cut => cut.2 ?_
    refine kept_dataPos _ ?_ (World.lt_of_fileBlock mapped)
    have up : (newSize + 511).toNat = newSize.toNat + 511 := by
      rw [UInt32.toNat_add]
      show (newSize.toNat + 511) % 4294967296 = _
      omega
    rw [up]
    omega
  refine ⟨?_, fun k hk => ?_, fun k hk => ?_⟩
  · rw [change.inodes_eq, if_pos rfl, size, length]
  · rw [(same k (by omega)).1]
    exact h.mapped k (by omega)
  · rw [(same k (by omega)).2, List.getElem?_take_of_lt (by omega)]
    exact h.bytes k (by omega)

/-- A write that starts within the file or at its end puts its bytes there. -/
theorem Journaled.holds_overwrite {i : Fin 256} {n : Inode} {w w₁ w₂ w' : World}
    {xs : List UInt8} {offset moved : UInt32} {buf : Nat → UInt8}
    (change : Journaled i (fun _ => False) n w w₁ w₂ w') (owned : w.Owned)
    (wrote : Wrote i w offset.toNat moved.toNat buf w₁)
    (nowrap : offset.toNat + moved.toNat < 4294967296)
    (size : n.size = if offset + moved > (w.catfs.inodes i).size then offset + moved
      else (w.catfs.inodes i).size)
    (fits : offset ≤ (w.catfs.inodes i).size) (h : Holds w i xs) :
    Holds w' i (overwrite xs offset.toNat ((List.range moved.toNat).map buf)) := by
  have inside : offset.toNat ≤ xs.length := h.size ▸ UInt32.le_iff_toNat_le.mp fits
  have length := @length_overwrite _ ((List.range moved.toNat).map buf) _ inside
  rw [List.length_map, List.length_range] at length
  have sum : (offset + moved).toNat = offset.toNat + moved.toNat := by
    rw [UInt32.toNat_add]
    omega
  have mapped₁ : ∀ k, k < max xs.length (offset.toNat + moved.toNat) →
      w₁.fileBlock i (k / 512) ≠ 0 := by
    intro k hk
    by_cases covered : offset.toNat ≤ k ∧ k < offset.toNat + moved.toNat
    · exact wrote.mapped k covered.1 covered.2
    · have old := h.mapped k (by omega)
      rw [wrote.grows.fileBlock old]
      exact old
  have same : ∀ k, k < max xs.length (offset.toNat + moved.toNat) →
      w'.fileBlock i (k / 512) = w₁.fileBlock i (k / 512) ∧ w'.byte i k = w₁.byte i k :=
    fun k hk => change.byte_eq owned (mapped₁ k hk) fun _ => id
  refine ⟨?_, fun k hk => ?_, fun k hk => ?_⟩
  · rw [change.inodes_eq, if_pos rfl, size, length, apply_ite UInt32.toNat, sum, ← h.size]
    simp only [gt_iff_lt, UInt32.lt_iff_toNat_lt, sum]
    split <;> omega
  · rw [length] at hk
    rw [(same k hk).1]
    exact mapped₁ k hk
  · rw [length] at hk
    rw [(same k hk).2, getElem?_overwrite inside _, List.length_map, List.length_range]
    by_cases covered : offset.toNat ≤ k ∧ k < offset.toNat + moved.toNat
    · rw [if_pos covered, wrote.bytes k covered.1 covered.2, List.getElem?_map,
        List.getElem?_range (by omega)]
      rfl
    · have old : k < xs.length := by omega
      rw [if_neg covered, wrote.kept k (h.mapped k old) covered]
      exact h.bytes k old

/-- **Target.** An operation that fits does to its target what `Op.bytes` does to
the byte array. -/
theorem holds_target {w w' : World} {op : Op} {r : Int} {i : Fin 256} {xs : List UInt8}
    (sound : Sound w) (run : op.apply w = some (w', r)) (target : op.target w = some i)
    (fits : op.Fits w) (h : Holds w i xs) : Holds w' i (op.bytes r.toNat xs) := by
  have is : ∀ {j : Fin 256}, op.target w = some j → i = j :=
    fun some => Option.some.inj (target.symm.trans some)
  have never : ∀ {P : Prop}, op.target w = none → P := by
    intro P none
    rw [none] at target
    cases target
  cases op with
  | create path type now =>
    rcases create_cases sound.ready sound.owned run with
      ⟨-, none⟩ | ⟨j, parent, base, w₂, some, -, -, change⟩
    · exact never none
    · obtain rfl := is some
      exact Holds.nil (by rw [change.inodes_eq, if_pos rfl]; rfl)
  | write idx offset buf len now =>
    rcases write_cases sound.ready sound.owned (Option.some.inj run) with
      ⟨-, -, none⟩ | ⟨j, w₁, n, hj, file, rfl, spec, ⟨hn, rfl⟩ | ⟨hn, w₂, change⟩⟩
    · exact never none
    · refine never ?_
      rw [write_target hj file, if_neg]
      intro starts
      rw [Op.startsAt, decide_eq_true_iff] at starts
      exact spec.started.mpr (by simpa using starts) hn
    · have wrote := spec.wrote
      have ends := spec.bound.resolve_left hn
      have hi : i = j := by
        rw [write_target hj file] at target
        split at target
        · exact (Option.some.inj target).symm
        · cases target
      subst hi
      refine @Journaled.holds_overwrite _ _ _ _ _ _ _ _ n buf change sound.owned ?_ (by omega) rfl
        (fits i hj) h
      simpa using wrote
  | truncate idx newSize now =>
    rcases truncate_cases sound.ready sound.owned (Option.some.inj run) with
      ⟨-, none⟩ | ⟨j, w₂, hj, some, -, change⟩
    · exact never none
    · obtain rfl := is some
      exact change.holds_take sound.owned rfl (fits i hj) h
  | rename idx newParent newName now =>
    rcases rename_cases sound.ready run with ⟨-, none⟩ | ⟨j, p, w₂, some, -, -, change⟩
    · exact never none
    · obtain rfl := is some
      exact change.holds sound.owned rfl h
  | chmod idx perms now =>
    rcases chmod_cases sound.ready (Option.some.inj run) with ⟨-, none⟩ | ⟨j, w₂, some, -, change⟩
    · exact never none
    · obtain rfl := is some
      exact change.holds sound.owned rfl h
  | unlink idx =>
    rcases unlink_cases sound.ready sound.owned (Option.some.inj run) with
      ⟨-, none⟩ | ⟨j, w₂, some, -, -, change⟩
    · exact never none
    · obtain rfl := is some
      exact Holds.nil (by rw [change.inodes_eq, if_pos rfl]; rfl)
  | sync => cases target
  | read idx offset len now => cases target

/-! ### Reads -/

section Reads

variable {w : World} {idx : Int} {i : Fin 256} {xs : List UInt8}

theorem catfsRead_free (ready : Ready w) (hi : inodeIdx idx = some i)
    (isFree : (w.catfs.inodes i).type = typeFree) (offset len now : UInt32) :
    (catfsRead w idx offset len now).2 = (-1, []) := by
  simp [catfsRead, ready.mounted, hi, isFree]

/-- A read that does not wrap around returns the bytes asked for that exist. -/
theorem Holds.read (h : Holds w i xs) (sound : Sound w) (hi : inodeIdx idx = some i)
    (live : (w.catfs.inodes i).type ≠ typeFree) {offset len : UInt32}
    (nowrap : offset.toNat + len.toNat < 4294967296) (now : UInt32) :
    (catfsRead w idx offset len now).2 =
      ((((xs.drop offset.toNat).take len.toNat).length : Int),
        (xs.drop offset.toNat).take len.toNat) := by
  unfold catfsRead
  rw [if_neg (by simp [sound.ready.mounted])]
  simp only [hi, live, if_false]
  by_cases past : offset ≥ (w.catfs.inodes i).size
  · have behind : xs.length ≤ offset.toNat := h.size ▸ UInt32.le_iff_toNat_le.mp past
    rw [if_pos past, List.drop_eq_nil_of_le behind, List.take_nil]
    rfl
  · rw [if_neg past]
    have inside : offset.toNat < xs.length :=
      h.size ▸ Nat.lt_of_not_le fun hle => past (UInt32.le_iff_toNat_le.mpr hle)
    have sum : (offset + len).toNat = offset.toNat + len.toNat := by
      rw [UInt32.toNat_add]
      omega
    generalize hlen : (if offset + len > (w.catfs.inodes i).size then
      (w.catfs.inodes i).size - offset else len) = len'
    have length : len'.toNat = min len.toNat (xs.length - offset.toNat) := by
      rw [← hlen, apply_ite UInt32.toNat, UInt32.toNat_sub_of_le _ _
        (UInt32.le_iff_toNat_le.mpr (by rw [h.size]; omega)), h.size]
      simp only [gt_iff_lt, UInt32.lt_iff_toNat_lt, sum, h.size]
      split <;> omega
    have zero : (0 : UInt32).toNat = 0 := rfl
    have loop := @readLoop_spec i offset len' _ sound.ready sound.owned
      len'.toNat 0 [] (by omega) (by omega) (by omega) fun k lo hk => h.mapped k (by omega)
    have out : readLoop w i offset len' len'.toNat 0 [] =
        (xs.drop offset.toNat).take len.toNat := by
      rw [loop, List.nil_append, zero, Nat.sub_zero, Nat.add_zero]
      refine List.ext_getElem? fun k => ?_
      rw [List.getElem?_map]
      by_cases hk : k < len'.toNat
      · rw [List.getElem?_range hk, List.getElem?_take_of_lt (by omega), List.getElem?_drop,
          h.bytes _ (by omega)]
        rfl
      · rw [List.getElem?_eq_none (by simp; omega), List.getElem?_eq_none (by simp; omega)]
        rfl
    simp only [out]

/-- A read returns no more than was asked for. -/
theorem length_catfsRead_le (offset len now : UInt32) :
    (catfsRead w idx offset len now).2.2.length ≤ len.toNat := by
  unfold catfsRead
  split
  · exact Nat.zero_le _
  · split
    · exact Nat.zero_le _
    · dsimp only
      split
      · exact Nat.zero_le _
      · split
        · exact Nat.zero_le _
        · rename_i past
          refine (length_readLoop_le w _ 0 [] rfl (Nat.zero_le _)).trans ?_
          have inside := UInt32.lt_iff_toNat_lt.mp (UInt32.not_le.mp past)
          have small := len.toNat_lt
          split
          · rename_i beyond
            have := UInt32.lt_iff_toNat_lt.mp beyond
            rw [UInt32.toNat_add] at this
            rw [UInt32.toNat_sub_of_le _ _ (UInt32.le_iff_toNat_le.mpr (by omega))]
            omega
          · exact le_refl _

/-- Whatever length is asked for, the bytes below the size are reported. -/
theorem Holds.reports (h : Holds w i xs) (sound : Sound w) (hi : inodeIdx idx = some i)
    (live : (w.catfs.inodes i).type ≠ typeFree) (offset len now : UInt32) {k : Nat}
    (asked : k < len.toNat) (below : offset.toNat + k < xs.length) :
    (catfsRead w idx offset len now).2.2[k]? = xs[offset.toNat + k]? := by
  have total := h.length_le
  have past : ¬offset ≥ (w.catfs.inodes i).size := by
    intro hle
    have := UInt32.le_iff_toNat_le.mp hle
    rw [h.size] at this
    omega
  unfold catfsRead
  rw [if_neg (by simp [sound.ready.mounted])]
  simp only [hi, live, if_false, past]
  generalize hlen : (if offset + len > (w.catfs.inodes i).size then
    (w.catfs.inodes i).size - offset else len) = len'
  have within : k + 1 ≤ len'.toNat := by
    rw [← hlen]
    split
    · rw [UInt32.toNat_sub_of_le _ _ (UInt32.le_iff_toNat_le.mpr (by rw [h.size]; omega)), h.size]
      omega
    · exact asked
  rw [readLoop_reports sound.ready sound.owned within (by omega)
    (fun m hm => h.mapped _ (by omega)) len'.toNat 0 [] (by omega) rfl (by simp) k (by omega),
    h.bytes _ below]

end Reads

/-- An operation keeps the type of every inode it does not target. -/
theorem step_type {w w' : World} {op : Op} {j : Fin 256} (sound : Sound w) (step : Step w op w')
    (other : op.target w ≠ some j) :
    (w'.catfs.inodes j).type = (w.catfs.inodes j).type := by
  cases step_cases sound.ready sound.owned step with
  | same _ => rfl
  | touched i now _ =>
    by_cases hj : j = i
    · subst hj
      simp [World.mapInode, World.mapCatfs]
    · simp [World.mapInode, World.mapCatfs, hj]
  | synced _ => rfl
  | stranded _ _ grows _ => exact grows.only.type_eq j
  | journaled target change _ _ _ =>
    rw [change.inodes_eq, if_neg]
    rintro rfl
    exact other target

/-- What a file reads is not affected by operations on other files. -/
theorem Holds.read_other {w w' : World} {op : Op} {j : Fin 256} {xs : List UInt8}
    (h : Holds w j xs) (sound : Sound w) (step : Step w op w') (other : op.target w ≠ some j)
    {idx : Int} (hj : inodeIdx idx = some j) {offset len : UInt32}
    (nowrap : offset.toNat + len.toNat < 4294967296) (now : UInt32) :
    (catfsRead w' idx offset len now).2 = (catfsRead w idx offset len now).2 := by
  have type := step_type sound step other
  have sound' := sound.step step
  by_cases isFree : (w.catfs.inodes j).type = typeFree
  · rw [catfsRead_free sound.ready hj isFree, catfsRead_free sound'.ready hj (type.trans isFree)]
  · rw [h.read sound hj isFree nowrap, (holds_other sound step other h).read sound' hj
      (by rw [type]; exact isFree) nowrap]

/-! ### Byte arrays -/

/-- The byte array of every inode. -/
abbrev Files := Fin 256 → List UInt8

/-- The operation on byte arrays; `count` is the number of bytes a write moves. -/
def Op.files (w : World) (count : Nat) (files : Files) (op : Op) : Files :=
  match op.target w with
  | none => files
  | some i => Function.update files i (op.bytes count (files i))

/-- **Step.** Operations that fit act on the stored bytes as on byte arrays. -/
theorem holds_step {w w' : World} {op : Op} {r : Int} {files : Files} (sound : Sound w)
    (run : op.apply w = some (w', r)) (fits : op.Fits w) (h : ∀ i, Holds w i (files i))
    (i : Fin 256) : Holds w' i (op.files w r.toNat files i) := by
  unfold Op.files
  cases target : op.target w with
  | none => exact holds_other sound ⟨r, run⟩ (by simp [target]) (h i)
  | some j =>
    dsimp only
    by_cases hi : i = j
    · subst hi
      rw [update_self]
      exact holds_target sound run target fits (h i)
    · rw [update_of_ne hi]
      refine holds_other sound ⟨r, run⟩ ?_ (h i)
      rw [target]
      exact fun same => hi (Option.some.inj same).symm

theorem Formatted.holds {w : World} (h : Formatted w) (i : Fin 256) : Holds w i [] := by
  obtain ⟨w₀, drive, off, label, now, -, state, rfl⟩ := h.eq
  refine Holds.nil ?_
  show (w₀.catfs.inodes i).size = 0
  rw [state]
  by_cases hi : i = 0
  · subst hi
    rfl
  · simp [formatState, hi]
    rfl

/-- The places a write of `len` bytes at `offset` goes through. -/
@[irreducible] def needed (offset len : UInt32) : Finset Pos :=
  ((Finset.range 16528).filter fun blk =>
    offset.toNat / 512 ≤ blk ∧ blk * 512 < offset.toNat + len.toNat).biUnion fun blk =>
      (dataPos blk).path.toFinset

theorem mem_needed {offset len : UInt32} {blk : Nat} {p : Pos} (small : blk < 16528)
    (lo : offset.toNat / 512 ≤ blk) (hi : blk * 512 < offset.toNat + len.toNat)
    (hp : p ∈ (dataPos blk).path) : p ∈ needed offset len := by
  unfold needed
  rw [Finset.mem_biUnion]
  refine ⟨blk, ?_, List.mem_toFinset.mpr hp⟩
  rw [Finset.mem_filter, Finset.mem_range]
  exact ⟨small, lo, hi⟩

/-- A write that stays within the largest file and finds enough free blocks. -/
def Op.Roomy (w : World) : Op → Prop
  | .write idx offset _ len _ => offset.toNat + len.toNat ≤ maxFileBlocks * blockSize ∧
      ∀ i, inodeIdx idx = some i →
        (w.unfilled i (needed offset len)).card ≤ w.catfs.sb.freeBlocks.toNat
  | _ => True

/-- The bytes a write is asked to move. -/
def Op.count : Op → Nat
  | .write _ _ _ len _ => len.toNat
  | _ => 0

/-- The volume and the byte arrays side by side: the arrays change by the same
operations, with all the bytes of every write. -/
def FilesStep (s : World × Files) (op : Op) (t : World × Files) : Prop :=
  Step s.1 op t.1 ∧ t.2 = op.files s.1 op.count s.2

theorem FilesStep.of_apply {w w' : World} {op : Op} {r : Int} (files : Files)
    (run : op.apply w = some (w', r)) :
    FilesStep (w, files) op (w', op.files w op.count files) := ⟨⟨r, run⟩, rfl⟩

/-- With enough free blocks a write moves all its bytes. -/
theorem files_of_roomy {w w' : World} {op : Op} {r : Int} {files : Files} (sound : Sound w)
    (run : op.apply w = some (w', r)) (roomy : op.Roomy w) :
    op.files w r.toNat files = op.files w op.count files := by
  cases op with
  | write idx offset buf len now =>
    rcases write_cases sound.ready sound.owned (Option.some.inj run) with
      ⟨-, -, none⟩ | ⟨i, w₁, n, hi, file, rfl, spec, -⟩
    · simp only [Op.files, none]
    · obtain ⟨total, room⟩ := roomy
      have most : maxFileBlocks * blockSize = 8462336 := rfl
      have enough := room i hi
      rw [sound.counted] at enough
      have all : n = len := by
        refine spec.complete (needed offset len) (fun blk lo hi' p hp => ?_) enough (by omega)
        rw [UInt32.toNat_zero, Nat.add_zero] at lo
        exact mem_needed (by omega) lo hi' hp
      rw [all]
      rfl
  | _ =>
    unfold Op.files
    split <;> rfl

/-- **Contents refine byte arrays.** Along every run in which writes and
truncations fit and there are enough free blocks, reads return what the byte
arrays have, and no operation changes what another file reads. -/
theorem run_contents {w w' : World} {ops : List Op} {files : Files} (formatted : Formatted w)
    (run : Run FilesStep (fun s op => op.Fits s.1 ∧ op.Roomy s.1) (w, fun _ => []) ops (w', files)) :
    (∀ i, (w'.catfs.inodes i).size.toNat = (files i).length) ∧
    (∀ idx i (offset len now : UInt32), inodeIdx idx = some i →
      (w'.catfs.inodes i).type ≠ typeFree → offset.toNat + len.toNat < 2 ^ 32 →
      (catfsRead w' idx offset len now).2 =
        (((((files i).drop offset.toNat).take len.toNat).length : Int),
          ((files i).drop offset.toNat).take len.toNat)) ∧
    ∀ op w'' j idx (offset len now : UInt32), Step w' op w'' → op.target w' ≠ some j →
      inodeIdx idx = some j → offset.toNat + len.toNat < 2 ^ 32 →
      (catfsRead w'' idx offset len now).2 = (catfsRead w' idx offset len now).2 := by
  have invariant : Sound w' ∧ ∀ i, Holds w' i (files i) := by
    refine Run.invariant (P := fun s : World × Files => Sound s.1 ∧ ∀ i, Holds s.1 i (s.2 i)) run
      ⟨formatted.sound, formatted.holds⟩ ?_
    rintro ⟨v, fs⟩ op ⟨v', fs'⟩ ⟨sound, holds⟩ ⟨fits, roomy⟩ ⟨⟨r, step⟩, rfl⟩
    refine ⟨sound.step ⟨r, step⟩, fun i => ?_⟩
    rw [← files_of_roomy sound step roomy]
    exact holds_step sound step fits holds i
  obtain ⟨sound, holds⟩ := invariant
  exact ⟨fun i => (holds i).size, fun idx i offset len now hi live nowrap =>
    (holds i).read sound hi live nowrap now, fun op w'' j idx offset len now step other hj nowrap =>
    (holds j).read_other sound step other hj nowrap now⟩

/-- One byte written to the file of `createdWorld` and read back. -/
theorem run_contents_write : (catfsRead (catfsWrite createdWorld 1 0 (fun _ => 0x41) 1 0).1
    1 0 100 0).2 = (1, [0x41]) := by
  have need : needed 0 1 ⊆ {Pos.direct 0} := by
    intro p hp
    unfold needed at hp
    rw [Finset.mem_biUnion] at hp
    obtain ⟨blk, inside, hp⟩ := hp
    rw [Finset.mem_filter] at inside
    have one : (1 : UInt32).toNat = 1 := rfl
    have zero : (0 : UInt32).toNat = 0 := rfl
    obtain rfl : blk = 0 := by omega
    exact Finset.mem_singleton.mpr (by simpa [dataPos, Pos.path] using hp)
  have room : (createdWorld.unfilled 1 (needed 0 1)).card ≤
      createdWorld.catfs.sb.freeBlocks.toNat := by
    refine (Finset.card_le_card ((Finset.filter_subset _ _).trans need)).trans ?_
    rw [Finset.card_singleton]
    decide
  have create : Run FilesStep (fun s op => op.Fits s.1 ∧ op.Roomy s.1) (freshWorld, fun _ => [])
      [.create pathA typeFile 0]
      (createdWorld, (Op.create pathA typeFile 0).files freshWorld 0 fun _ => []) :=
    Run.single ⟨trivial, trivial⟩ (.of_apply _ createdWorld_eq)
  have fits : (Op.write 1 0 (fun _ => 0x41) 1 0).Fits createdWorld := by
    intro i _
    exact UInt32.zero_le
  have roomy : (Op.write 1 0 (fun _ => 0x41) 1 0).Roomy createdWorld := by
    refine ⟨by decide, fun i hi => ?_⟩
    obtain rfl : 1 = i := Option.some.inj (show some (1 : Fin 256) = some i from hi)
    exact room
  have run := create.snoc ⟨fits, roomy⟩ (.of_apply _ (write_apply createdWorld 1 0 (fun _ => 0x41) 1 0))
  have read := (run_contents freshWorld_formatted run).2.1 1 1 0 100 0 rfl (by decide +kernel)
    (by decide)
  rw [read]
  decide +kernel

/-! ### Bytes written -/

/-- The bytes written to every file since its creation and not cut off. -/
abbrev Written := Fin 256 → Nat → Option UInt8

/-- What the operation does to the record of its target; `count` is the number of
bytes a write has moved. -/
def Op.record (count : Nat) (old : Nat → Option UInt8) : Op → Nat → Option UInt8
  | .create _ _ _ => fun _ => none
  | .unlink _ => fun _ => none
  | .write _ offset buf _ _ => fun k =>
    if offset.toNat ≤ k ∧ k < offset.toNat + count then some (buf (k - offset.toNat)) else old k
  | .truncate _ newSize _ => fun k => if k < newSize.toNat then old k else none
  | _ => old

def Op.written (w : World) (count : Nat) (written : Written) (op : Op) : Written :=
  match op.target w with
  | none => written
  | some i => Function.update written i (op.record count (written i))

/-- The volume and the record of its bytes side by side. -/
def WrittenStep (s : World × Written) (op : Op) (t : World × Written) : Prop :=
  ∃ r, op.apply s.1 = some (t.1, r) ∧ t.2 = op.written s.1 r.toNat s.2

theorem WrittenStep.of_apply {w w' : World} {op : Op} {r : Int} (written : Written)
    (run : op.apply w = some (w', r)) :
    WrittenStep (w, written) op (w', op.written w r.toNat written) := ⟨r, run, rfl⟩

/-- The record knows every byte of the array. -/
def Recorded (xs : List UInt8) (written : Nat → Option UInt8) : Prop :=
  ∀ k, k < xs.length → written k = xs[k]?

/-- A write starts within the array or at its end. -/
def Op.Inside (length : Nat) : Op → Prop
  | .write _ offset _ _ _ => offset.toNat ≤ length
  | _ => True

theorem Recorded.step {xs : List UInt8} {written : Nat → Option UInt8} (h : Recorded xs written)
    {op : Op} (inside : op.Inside xs.length) (count : Nat) :
    Recorded (op.bytes count xs) (op.record count written) := by
  cases op with
  | create path type now => intro k hk; cases hk
  | unlink idx => intro k hk; cases hk
  | write idx offset buf len now =>
    intro k hk
    have start : offset.toNat ≤ xs.length := inside
    have length := @length_overwrite _ ((List.range count).map buf) _ start
    rw [List.length_map, List.length_range] at length
    rw [Op.bytes, length] at hk
    simp only [Op.bytes, Op.record, getElem?_overwrite start _, List.length_map, List.length_range]
    by_cases covered : offset.toNat ≤ k ∧ k < offset.toNat + count
    · rw [if_pos covered, if_pos covered, List.getElem?_map, List.getElem?_range (by omega)]
      rfl
    · rw [if_neg covered, if_neg covered]
      exact h k (by omega)
  | truncate idx newSize now =>
    intro k hk
    simp only [Op.bytes, List.length_take] at hk
    simp only [Op.bytes, Op.record]
    rw [if_pos (by omega), List.getElem?_take_of_lt (by omega)]
    exact h k (by omega)
  | _ => exact h

/-- An operation that fits starts within the bytes of its target. -/
theorem Holds.inside {w : World} {i : Fin 256} {xs : List UInt8} {op : Op} (h : Holds w i xs)
    (fits : op.Fits w) (target : op.target w = some i) : op.Inside xs.length := by
  cases op with
  | write idx offset buf len now =>
    have hi : inodeIdx idx = some i := (Option.filter_eq_some_iff.mp target).1
    exact h.size ▸ UInt32.le_iff_toNat_le.mp (fits i hi)
  | _ => trivial

end AtmKoala.Catfs
