import AtmKoala.Btrfs.Model
import Mathlib.Data.List.MinMax

/-!
What a probe selects, and what a new label changes.

* `select_spec`: the first of the acceptable mirrors of greatest rank, where a right checksum
  comes before the generation.
* `readSuper_eq`: whether a mirror can be read depends on the drives, what is read on the disk.
* `probe_eq`: the probe behind an accepted boot sector.
* `relabel_frame` and the lemmas behind it: checksum area, generation and label change, and the
  new superblock is valid where the old one was.
-/

namespace AtmKoala.Btrfs

open Lib Partmgr
open Catfs (World)

/-! ### Selection -/

/-- A right checksum comes first, then the generation. -/
def Mirror.rank (m : Mirror) : Nat := (if m.csumOk then 2 ^ 64 else 0) + m.generation.toNat

theorem betterMirror_iff {cand best : Mirror} (present : best.present = true) :
    betterMirror cand best = true ↔ best.rank < cand.rank := by
  have small := best.generation.toNat_lt
  have small' := cand.generation.toNat_lt
  unfold betterMirror Mirror.rank
  rw [present]
  cases cand.csumOk with
  | false =>
    cases best.csumOk with
    | false => simp [UInt64.lt_iff_toNat_lt]
    | true =>
      simp
      omega
  | true =>
    cases best.csumOk with
    | false =>
      simp
      omega
    | true => simp [UInt64.lt_iff_toNat_lt]

theorem Mirror.acceptable_present {m : Mirror} (accepted : m.acceptable = true) : m.present = true := by
  unfold Mirror.acceptable at accepted
  rw [decide_eq_true_iff] at accepted
  exact accepted.1

/-- The acceptable mirrors, in the order in which they are read. -/
def candidates (ms : Fin 3 → Mirror) : List (Fin 3) := readOrder.filter fun i => (ms i).acceptable

theorem mem_candidates {ms : Fin 3 → Mirror} {i : Fin 3} :
    i ∈ candidates ms ↔ (ms i).acceptable = true := by
  have all : i ∈ readOrder := by revert i; decide
  unfold candidates
  rw [List.mem_filter]
  exact ⟨fun h => h.2, fun h => ⟨all, h⟩⟩

/-- The mirror kept when one more is acceptable. -/
def kept (ms : Fin 3 → Mirror) (best : Option (Fin 3)) (i : Fin 3) : Option (Fin 3) :=
  match best with
  | none => some i
  | some b => if betterMirror (ms i) (ms b) then some i else some b

theorem select_eq (ms : Fin 3 → Mirror) :
    select ms = (candidates ms).argmax fun i => (ms i).rank := by
  unfold select candidates List.argmax
  rw [List.foldl_filter]
  have step : ∀ (order : List (Fin 3)) (best : Option (Fin 3)),
      (∀ b, best = some b → (ms b).acceptable = true) →
      order.foldl (fun best i =>
        if (ms i).acceptable then kept ms best i else best) best =
      order.foldl (fun best i =>
        if (ms i).acceptable then List.argAux (fun b c => (ms c).rank < (ms b).rank) best i
        else best) best := by
    intro order
    induction order with
    | nil => exact fun _ _ => rfl
    | cons i order ih =>
      intro best accepted
      rw [List.foldl_cons, List.foldl_cons]
      by_cases here : (ms i).acceptable = true
      · rw [if_pos here, if_pos here]
        cases best with
        | none => exact ih (some i) fun b same => by rw [← Option.some.inj same]; exact here
        | some b =>
          have present := Mirror.acceptable_present (accepted b rfl)
          show order.foldl _ (if betterMirror (ms i) (ms b) then some i else some b) =
            order.foldl _ (if (ms b).rank < (ms i).rank then some i else some b)
          simp only [betterMirror_iff present]
          refine ih _ fun c same => ?_
          split at same
          · rw [← Option.some.inj same]
            exact here
          · exact accepted c same
      · rw [if_neg here, if_neg here]
        exact ih best accepted
  exact step readOrder none (by rintro b ⟨⟩)

/-- Earlier in an ascending list is lower. -/
theorem le_of_idxOf_le {L : List (Fin 3)} (ascending : L.Pairwise (· < ·)) {i j : Fin 3} (mem : i ∈ L)
    (mem' : j ∈ L) (earlier : L.idxOf i ≤ L.idxOf j) : i ≤ j := by
  rcases Nat.lt_or_eq_of_le earlier with before | same
  · have less := List.pairwise_iff_getElem.mp ascending (L.idxOf i) (L.idxOf j)
      (List.idxOf_lt_length_of_mem mem) (List.idxOf_lt_length_of_mem mem') before
    rw [List.getElem_idxOf, List.getElem_idxOf] at less
    exact Fin.le_of_lt less
  · exact le_of_eq ((List.idxOf_inj mem).mp same)

theorem ascending_candidates (ms : Fin 3 → Mirror) : (candidates ms).Pairwise (· < ·) :=
  List.Pairwise.filter _ (show readOrder.Pairwise (· < ·) by decide)

/-- The selected mirror is the first of greatest rank. -/
theorem select_spec {ms : Fin 3 → Mirror} {s : Fin 3} (selected : select ms = some s) :
    (ms s).acceptable = true ∧ (∀ c, (ms c).acceptable = true → (ms c).rank ≤ (ms s).rank) ∧
      ∀ c, (ms c).acceptable = true → (ms s).rank ≤ (ms c).rank → s ≤ c := by
  rw [select_eq, List.argmax_eq_some_iff] at selected
  obtain ⟨mem, most, first⟩ := selected
  refine ⟨mem_candidates.mp mem, fun c accepted => most c (mem_candidates.mpr accepted),
    fun c accepted tie => ?_⟩
  exact le_of_idxOf_le (ascending_candidates ms) mem (mem_candidates.mpr accepted)
    (first c (mem_candidates.mpr accepted) tie)

theorem select_isSome {ms : Fin 3 → Mirror} {c : Fin 3} (accepted : (ms c).acceptable = true) :
    ∃ s, select ms = some s := by
  rw [← Option.ne_none_iff_exists', select_eq]
  intro none
  rw [List.argmax_eq_none] at none
  have mem := mem_candidates.mpr accepted
  rw [none] at mem
  cases mem

/-! ### Reading -/

/-- The place of sector `j` of a mirror on the bus. -/
def mirrorAddr (drive : Int) (partLba : UInt32) (i : Fin 3) (j : Nat) : Int × Nat :=
  (drive, lba28 (UInt32.ofNat (mirrorLba partLba i) + UInt32.ofNat j))

/-- The bytes at a mirror. -/
def superAt (disk : Disk) (drive : Int) (partLba : UInt32) (i : Fin 3) : Super := fun k =>
  (disk (mirrorAddr drive partLba i (k.val / 512))).byteAt (k.val % 512)

/-- The mirror can be read. -/
def Readable (drives : Int → Drive) (drive : Int) (partLba : UInt32) (i : Fin 3) : Prop :=
  mirrorLba partLba i ≤ 0xFFFFFFFF ∧ ∀ j, j < 8 →
    diskAnswers drives drive (UInt32.ofNat (mirrorLba partLba i) + UInt32.ofNat j)

/-- Counting from the next sector. -/
theorem add_ofNat_succ (lba : UInt32) (j : Nat) :
    lba + UInt32.ofNat (j + 1) = lba + 1 + UInt32.ofNat j := by
  rw [UInt32.ofNat_add, UInt32.add_assoc, UInt32.add_comm (UInt32.ofNat j)]
  rfl

theorem diskRead_some {w : World} {drive : Int} {lba : UInt32} {n : Nat}
    (answers : ∀ j, j < n → diskAnswers w.drives drive (lba + UInt32.ofNat j)) :
    ∃ secs, diskRead w drive lba n = some secs ∧ ∀ j, j < n →
      secs.getD j (Block.zero 512) = w.disk (drive, lba28 (lba + UInt32.ofNat j)) := by
  induction n generalizing lba with
  | zero => exact ⟨[], rfl, fun j less => absurd less (Nat.not_lt_zero j)⟩
  | succ n ih =>
    have here := answers 0 (Nat.succ_pos n)
    rw [show lba + UInt32.ofNat 0 = lba by simp] at here
    obtain ⟨secs, read, sectors⟩ := ih fun j less => by
      rw [← add_ofNat_succ]
      exact answers (j + 1) (Nat.succ_lt_succ less)
    refine ⟨w.disk (drive, lba28 lba) :: secs, ?_, fun j less => ?_⟩
    · unfold diskRead
      rw [diskReadSector_eq, if_pos here, read]
    · cases j with
      | zero => simp
      | succ j =>
        rw [add_ofNat_succ]
        exact sectors j (Nat.lt_of_succ_lt_succ less)

theorem diskRead_none {w : World} {drive : Int} {lba : UInt32} {n j : Nat} (less : j < n)
    (fails : ¬diskAnswers w.drives drive (lba + UInt32.ofNat j)) : diskRead w drive lba n = none := by
  induction n generalizing lba j with
  | zero => exact absurd less (Nat.not_lt_zero j)
  | succ n ih =>
    unfold diskRead
    rw [diskReadSector_eq]
    cases j with
    | zero =>
      rw [show lba + UInt32.ofNat 0 = lba by simp] at fails
      rw [if_neg fails]
    | succ j =>
      rw [add_ofNat_succ] at fails
      rw [ih (Nat.lt_of_succ_lt_succ less) fails]
      split
      · rfl
      · rfl

open Classical in
theorem readSuper_eq (w : World) (drive : Int) (partLba : UInt32) (i : Fin 3) :
    readSuper w drive partLba i =
      if Readable w.drives drive partLba i then some (superAt w.disk drive partLba i) else none := by
  unfold readSuper
  by_cases high : 0xFFFFFFFF < mirrorLba partLba i
  · rw [if_pos high, if_neg fun readable => Nat.not_lt.mpr readable.1 high]
  · rw [if_neg high]
    by_cases answers : ∀ j, j < 8 →
        diskAnswers w.drives drive (UInt32.ofNat (mirrorLba partLba i) + UInt32.ofNat j)
    · obtain ⟨secs, read, sectors⟩ := diskRead_some answers
      rw [if_pos ⟨Nat.not_lt.mp high, answers⟩, read, Option.map_some]
      congr 1
      funext k
      have less := k.isLt
      unfold ofSectors superAt
      rw [sectors _ (by omega)]
      rfl
    · rw [if_neg fun readable => answers readable.2]
      simp only [not_forall] at answers
      obtain ⟨j, less, fails⟩ := answers
      rw [diskRead_none less fails]
      rfl

/-! ### Probing -/

/-- The boot sector has the entry `e` for the partition. -/
structure Table (w : World) (drive part : Int) (e : MbrEntry) : Prop where
  onDrive : 0 ≤ drive
  slot : ∃ i : Fin 4, (i.val : Int) = part ∧ (mbrRead w drive mbrInitEmpty).1.entries i = e
  accepted : (mbrRead w drive mbrInitEmpty).2 = true
  valid : (mbrRead w drive mbrInitEmpty).1.valid = true
  sectors : e.sectorCount ≠ 0

theorem table_of_probe {w : World} {st st' : BtrfsState} {drive part : Int}
    (probed : btrfsProbePartition w st drive part = (st', true)) : ∃ e, Table w drive part e := by
  unfold btrfsProbePartition at probed
  split at probed
  · cases probed
  · rename_i known
    dsimp only at probed
    split at probed
    · cases probed
    · rename_i accepted
      simp only [not_or, Bool.not_eq_false] at accepted
      exact ⟨_, by omega, ⟨⟨part.toNat, by omega⟩, by show (part.toNat : Int) = part; omega, rfl⟩,
        accepted.1, accepted.2.1, accepted.2.2⟩

/-- What the probe does behind the boot sector. -/
theorem probe_eq {w : World} (st : BtrfsState) {drive part : Int} {e : MbrEntry}
    (table : Table w drive part e) :
    btrfsProbePartition w st drive part =
      match select (mirrorsAt w drive e) with
      | none => (probeStart drive e (mirrorsAt w drive e), false)
      | some i => (selectedState w drive e i, true) := by
  obtain ⟨i, this, entry⟩ := table.slot
  have onDrive := table.onDrive
  have slot : i = ⟨part.toNat, by omega⟩ := Fin.ext (by show i.val = part.toNat; omega)
  rw [slot] at entry
  unfold btrfsProbePartition
  rw [dif_neg (by omega)]
  dsimp only
  rw [entry]
  exact if_neg (by simp [table.accepted, table.valid, table.sectors])

/-- The table is read off one sector. -/
theorem Table.of_sector {w w' : World} {drive part : Int} {e : MbrEntry}
    (table : Table w drive part e) (drives : w'.drives = w.drives)
    (same : w'.disk (drive, 0) = w.disk (drive, 0)) : Table w' drive part e := by
  have read : mbrRead w' drive mbrInitEmpty = mbrRead w drive mbrInitEmpty := by
    have zero : lba28 0 = 0 := rfl
    unfold mbrRead
    rw [diskReadSector_eq, diskReadSector_eq, drives, zero, same]
  exact ⟨table.onDrive, by rw [read]; exact table.slot, by rw [read]; exact table.accepted,
    by rw [read]; exact table.valid, table.sectors⟩

/-! ### The new superblock -/

/-- The bytes an update may change: checksum area, generation and label. -/
def Changing (k : Nat) : Prop := k < 32 ∨ (0x48 ≤ k ∧ k < 0x50) ∨ (0x12B ≤ k ∧ k < 0x22B)

theorem sealed_byteAt {s : Super} {k : Nat} (low : 4 ≤ k) (less : k < 4096) :
    (sealed s).byteAt k = s.byteAt k := by
  unfold sealed
  rw [Block.byteAt_blit _ _ _ _ _ less, if_neg (by omega)]

theorem superCrc_congr {s t : Super} (same : ∀ k, 32 ≤ k → k < 4096 → s.byteAt k = t.byteAt k) :
    superCrc s = superCrc t := by
  have bytes : (List.range (4096 - 32)).map (fun k => s.byteAt (32 + k)) =
      (List.range (4096 - 32)).map fun k => t.byteAt (32 + k) :=
    List.map_congr_left fun k mem => same _ (by omega) (by
      have less := List.mem_range.mp mem
      omega)
  unfold superCrc
  rw [bytes]

theorem csumOk_sealed {s : Super} (type : u16At s.byteAt 0xC4 = 0) : csumOk (sealed s) = true := by
  have same : u16At (sealed s).byteAt 0xC4 = u16At s.byteAt 0xC4 :=
    u16At_congr fun k less => sealed_byteAt (by omega) (by omega)
  have crc : superCrc (sealed s) = superCrc s :=
    superCrc_congr fun k low less => sealed_byteAt (by omega) less
  have stored : u32At (sealed s).byteAt 0 = superCrc s := u32At_eq_of_bytes fun k less => by
    unfold sealed
    rw [Block.byteAt_blit _ _ _ _ _ (by omega), if_pos (by omega), Nat.zero_add, Nat.sub_zero]
  unfold csumOk
  rw [same, crc, stored, type]
  simp

section Relabel

variable {s : Super} {generation : UInt64} {label : Bytes}

/-- Everything behind the checksum. -/
theorem relabel_byteAt (short : label.length ≤ 255) {k : Nat} (low : 4 ≤ k) (less : k < 4096) :
    (relabel s generation label).byteAt k =
      if k < 32 then 0
      else if 0x48 ≤ k ∧ k < 0x48 + 8 then u64Byte generation (k - 0x48)
      else if 0x12B ≤ k ∧ k < 0x12B + 256 then label.getD (k - 0x12B) 0
      else s.byteAt k := by
  unfold relabel
  dsimp only
  rw [sealed_byteAt low less, Block.byteAt_blit _ _ _ _ _ less,
    Block.byteAt_blit _ _ _ _ _ less, Block.byteAt_blit _ _ _ _ _ less,
    Block.byteAt_blit _ _ _ _ _ less]
  by_cases inside : 0x12B ≤ k ∧ k < 0x12B + 256
  · have gen : ¬(0x48 ≤ k ∧ k < 0x48 + 8) := by omega
    have area : ¬k < 32 := by omega
    rw [if_neg area, if_pos inside, if_neg gen, if_pos inside]
    by_cases within : 0x12B ≤ k ∧ k < 0x12B + (label.length + 1)
    · rw [if_pos within]
    · rw [if_neg within, List.getD_eq_default _ _ (by omega)]
  · have within : ¬(0x12B ≤ k ∧ k < 0x12B + (label.length + 1)) := by omega
    rw [if_neg within, if_neg inside, if_neg inside]
    by_cases gen : 0x48 ≤ k ∧ k < 0x48 + 8
    · have area : ¬k < 32 := by omega
      rw [if_pos gen, if_pos gen, if_neg area]
    · rw [if_neg gen, if_neg gen]
      by_cases area : k < 32
      · rw [if_pos area, if_pos (by omega)]
      · rw [if_neg area, if_neg (by omega)]

/-- Other bytes stay as they are. -/
theorem relabel_frame (short : label.length ≤ 255) {k : Nat} (outside : ¬Changing k) (less : k < 4096) :
    (relabel s generation label).byteAt k = s.byteAt k := by
  unfold Changing at outside
  simp only [not_or] at outside
  obtain ⟨area, gen, inside⟩ := outside
  rw [relabel_byteAt short (by omega) less, if_neg area, if_neg gen, if_neg inside]

theorem relabel_generation (short : label.length ≤ 255) :
    u64At (relabel s generation label).byteAt 0x48 = generation := by
  refine u64At_eq_of_bytes fun k less => ?_
  rw [relabel_byteAt short (by omega) (by omega), if_neg (by omega), if_pos (by omega)]
  congr 1
  omega

theorem relabel_csum (type : u16At s.byteAt 0xC4 = 0) (short : label.length ≤ 255) :
    csumOk (relabel s generation label) = true := by
  refine csumOk_sealed ?_
  rw [← type]
  refine u16At_congr fun k less => ?_
  have same : (relabel s generation label).byteAt (0xC4 + k) = s.byteAt (0xC4 + k) :=
    relabel_frame short (by unfold Changing; omega) (by omega)
  rw [← same]
  exact (sealed_byteAt (by omega) (by omega)).symm

theorem relabel_magic (short : label.length ≤ 255) :
    magicOk (relabel s generation label) = magicOk s := by
  unfold magicOk
  have same : (List.range 8).map (fun k => (relabel s generation label).byteAt (0x40 + k)) =
      (List.range 8).map fun k => s.byteAt (0x40 + k) := by
    refine List.map_congr_left fun k mem => ?_
    have less := List.mem_range.mp mem
    exact relabel_frame short (by unfold Changing; omega) (by omega)
  rw [same]

theorem relabel_geometry (short : label.length ≤ 255) :
    geometryOk (relabel s generation label) = geometryOk s := by
  have sec : u32At (relabel s generation label).byteAt 0x90 = u32At s.byteAt 0x90 :=
    u32At_congr fun k less => relabel_frame short (by unfold Changing; omega) (by omega)
  have node : u32At (relabel s generation label).byteAt 0x94 = u32At s.byteAt 0x94 :=
    u32At_congr fun k less => relabel_frame short (by unfold Changing; omega) (by omega)
  unfold geometryOk
  rw [sec, node]

theorem relabel_bytenr (short : label.length ≤ 255) :
    u64At (relabel s generation label).byteAt 0x30 = u64At s.byteAt 0x30 :=
  u64At_congr fun k less => relabel_frame short (by unfold Changing; omega) (by omega)

/-- A valid superblock stays valid. -/
theorem relabel_valid {off : UInt64} (short : label.length ≤ 255) (valid : superValidAt s off = true) :
    superValidAt (relabel s generation label) off = true := by
  unfold superValidAt at valid ⊢
  rw [decide_eq_true_iff] at valid ⊢
  obtain ⟨magic, geometry, bytenr, csum⟩ := valid
  have type : u16At s.byteAt 0xC4 = 0 := by
    unfold csumOk at csum
    rw [decide_eq_true_iff] at csum
    exact csum.1
  exact ⟨by rwa [relabel_magic short], by rwa [relabel_geometry short],
    by rwa [relabel_bytenr short], relabel_csum type short⟩

theorem labelOk_length (ok : labelOk label = true) : label.length ≤ 255 := by
  unfold labelOk at ok
  rw [decide_eq_true_iff] at ok
  exact ok.2.1

/-- A string that is stored with its NUL reads back. -/
theorem takeWhile_stored {f : Nat → UInt8} {text : Bytes} {n : Nat} (long : text.length < n)
    (stored : ∀ k, k ≤ text.length → f k = text.getD k 0) (noNul : ∀ c ∈ text, c ≠ 0) :
    ((List.range n).map f).takeWhile (· ≠ 0) = text := by
  induction text generalizing f n with
  | nil =>
    obtain ⟨n, rfl⟩ := Nat.exists_eq_succ_of_ne_zero (Nat.ne_of_gt long)
    have first : f 0 = 0 := stored 0 (Nat.le_refl 0)
    rw [List.range_succ_eq_map, List.map_cons, first]
    rfl
  | cons c text ih =>
    obtain ⟨n, rfl⟩ := Nat.exists_eq_succ_of_ne_zero (Nat.ne_of_gt (Nat.lt_of_le_of_lt (Nat.zero_le _) long))
    have first : f 0 = c := stored 0 (Nat.zero_le _)
    have rest := ih (f := fun k => f (k + 1)) (Nat.lt_of_succ_lt_succ long)
      (fun k small => stored (k + 1) (Nat.succ_le_succ small))
      fun c mem => noNul c (List.mem_cons_of_mem _ mem)
    rw [List.range_succ_eq_map, List.map_cons, List.map_map, first,
      List.takeWhile_cons_of_pos (by simp [noNul c List.mem_cons_self])]
    exact congrArg (c :: ·) rest

/-- The label reads back whole. -/
theorem relabel_string (ok : labelOk label = true) {n : Nat} (long : 256 ≤ n) (inside : 0x12B + n ≤ 4096) :
    stringAt (relabel s generation label) 0x12B n = label := by
  have short := labelOk_length ok
  refine takeWhile_stored (by omega) (fun k small => ?_) fun c mem zero => ?_
  · rw [relabel_byteAt short (by omega) (by omega), if_neg (by omega), if_neg (by omega),
      if_pos (by omega), Nat.add_sub_cancel_left]
  · unfold labelOk at ok
    rw [decide_eq_true_iff] at ok
    have printable := (ok.2.2 c mem).1
    rw [zero] at printable
    exact absurd printable (by decide)

end Relabel

end AtmKoala.Btrfs
