import Mathlib.Data.List.Sort
import AtmKoala.Lib.Forest
import AtmKoala.Catfs.Fsck

/-!
What `catfs_fsck_at` makes of a corrupted image.

* `fsckOrphans_repair`: the orphan pass removes what one pass in index order over the
  parent links removes (`Swept`).
* `fsckMounted_repair`: the image on the disk afterwards.
* `fsck_converges_iff`: when a second fsck has nothing left to report and the image
  is a tree with the right counts.
-/

namespace AtmKoala.Catfs

open Lib

/-! ### Free slots -/

/-- The number of free slots of the inode table. -/
def freeSlots (inodes : Fin 256 → Inode) : Nat :=
  (List.finRange 256).countP fun i => (inodes i).type = typeFree

theorem countP_flip {α : Type} {p q : α → Bool} {l : List α} {a : α} (nodup : l.Nodup)
    (mem : a ∈ l) (off : p a = false) (on : q a = true) (same : ∀ b, b ≠ a → q b = p b) :
    l.countP q = l.countP p + 1 := by
  induction l with
  | nil => cases mem
  | cons b l ih =>
    obtain ⟨notMem, nodup⟩ := List.nodup_cons.mp nodup
    rw [List.countP_cons, List.countP_cons]
    by_cases here : b = a
    · subst here
      have rest : l.countP q = l.countP p :=
        List.countP_congr fun c hc => by rw [same c fun h => notMem (h ▸ hc)]
      rw [rest, on, off]
      simp
    · have later : a ∈ l := (List.mem_cons.mp mem).resolve_left fun h => here h.symm
      rw [ih nodup later, same b here]
      omega

/-- Emptying a live slot makes one more free slot. -/
theorem freeSlots_release {inodes inodes' : Fin 256 → Inode} {i : Fin 256}
    (live : (inodes i).type ≠ typeFree) (freed : (inodes' i).type = typeFree)
    (others : ∀ j, j ≠ i → (inodes' j).type = (inodes j).type) :
    freeSlots inodes' = freeSlots inodes + 1 :=
  countP_flip (List.nodup_finRange 256) (List.mem_finRange i) (decide_eq_false live)
    (decide_eq_true freed) fun j hj => by rw [others j hj]

theorem freeSlots_le (inodes : Fin 256 → Inode) : freeSlots inodes ≤ 256 := by
  have := List.countP_le_length (p := fun i => decide ((inodes i).type = typeFree)) (l := List.finRange 256)
  simpa [freeSlots] using this

/-! ### The orphan pass -/

/-- The directory above an inode. -/
def dirAbove (inodes : Fin 256 → Inode) (i : Fin 256) : Option (Fin 256) :=
  (inodeIdx (inodes i).parent.toInt).filter fun p => (inodes p).type = typeDir

/-- Live, and not the root. -/
def Member (inodes : Fin 256 → Inode) (i : Fin 256) : Prop :=
  i ≠ 0 ∧ (inodes i).type ≠ typeFree

/-- What the orphan pass removes. -/
def Removed (inodes : Fin 256 → Inode) : Fin 256 → Prop :=
  Swept (dirAbove inodes) (Member inodes)

theorem dirAbove_eq_some {inodes : Fin 256 → Inode} {i p : Fin 256} :
    dirAbove inodes i = some p ↔
      inodeIdx (inodes i).parent.toInt = some p ∧ (inodes p).type = typeDir := by
  unfold dirAbove
  rw [Option.filter_eq_some_iff, decide_eq_true_eq]

theorem hasDirectory_iff {inodes : Fin 256 → Inode} {i : Fin 256} :
    HasDirectory inodes i ↔ ∃ p, dirAbove inodes i = some p :=
  exists_congr fun _ => dirAbove_eq_some.symm

theorem Removed.member {inodes : Fin 256 → Inode} {i : Fin 256} (h : Removed inodes i) :
    Member inodes i :=
  Swept.member h

section OrphanPass

variable {c : State} {acc : Nat × State} {i : Fin 256} {is : List (Fin 256)}

/-- The pass has still to visit `is`. -/
structure Sweeping (c : State) (is : List (Fin 256)) (acc : Nat × State) : Prop where
  gone : ∀ j, Removed c.inodes j → j ∉ is → acc.2.inodes j = Inode.zero
  kept : ∀ j, ¬(Removed c.inodes j ∧ j ∉ is) → acc.2.inodes j = c.inodes j
  count : freeSlots acc.2.inodes = freeSlots c.inodes + acc.1
  rest : acc.2 = { c with
    inodes := acc.2.inodes
    sb := { c.sb with freeInodes := c.sb.freeInodes + UInt32.ofNat acc.1 } }

/-- When the pass comes to an inode, the inode is without a directory if its parent is
none or was removed. -/
theorem Sweeping.orphaned_iff (h : Sweeping c (i :: is) acc) (live : Member c.inodes i)
    (sorted : ∀ j, j ≠ 0 → (j ∉ i :: is ↔ j < i)) :
    orphaned acc.2 i = true ↔ Removed c.inodes i := by
  have own : acc.2.inodes i = c.inodes i := h.kept i fun both => both.2 List.mem_cons_self
  rw [Catfs.orphaned_iff, hasDirectory_iff]
  constructor
  · intro lost
    cases above : dirAbove c.inodes i with
    | none => exact .lost live above
    | some p =>
      obtain ⟨index, dir⟩ := dirAbove_eq_some.mp above
      -- the directory is there in the table as it was, so it must have been removed
      have gone : Removed c.inodes p ∧ p ∉ i :: is := by
        by_contra there
        refine lost ⟨p, dirAbove_eq_some.mpr ⟨?_, ?_⟩⟩
        · rw [own, index]
        · rw [h.kept p there, dir]
      exact .behind live above ((sorted p gone.1.member.1).mp gone.2) gone.1
  · rintro removed ⟨p, above⟩
    obtain ⟨index, dir⟩ := dirAbove_eq_some.mp above
    rw [own] at index
    have notGone : ¬(Removed c.inodes p ∧ p ∉ i :: is) := by
      intro gone
      rw [h.gone p gone.1 gone.2] at dir
      cases dir
    rw [h.kept p notGone] at dir
    have before : dirAbove c.inodes i = some p := dirAbove_eq_some.mpr ⟨index, dir⟩
    cases removed with
    | lost _ none_ =>
      have impossible := none_.symm.trans before
      cases impossible
    | behind _ link less gone =>
      obtain rfl := Option.some.inj (before.symm.trans link)
      exact notGone ⟨gone, (sorted p gone.member.1).mpr less⟩

theorem Sweeping.next (h : Sweeping c (i :: is) acc) (nonzero : i ≠ 0) (notMem : i ∉ is)
    (sorted : ∀ j, j ≠ 0 → (j ∉ i :: is ↔ j < i)) :
    Sweeping c is (fsckOrphan true acc i) := by
  have own : acc.2.inodes i = c.inodes i := h.kept i fun both => both.2 List.mem_cons_self
  have later : ∀ j, j ≠ i → (j ∉ is ↔ j ∉ i :: is) := by
    intro j other
    simp [other]
  -- an inode that is not removed here leaves everything as it is
  have pass : ¬Removed c.inodes i → Sweeping c is acc := by
    intro stays
    refine ⟨fun j removed out => ?_, fun j there => ?_, h.count, h.rest⟩
    · have other : j ≠ i := fun same => stays (same ▸ removed)
      exact h.gone j removed ((later j other).mp out)
    · refine h.kept j fun both => there ⟨both.1, ?_⟩
      exact fun mem => both.2 (List.mem_cons_of_mem _ mem)
  by_cases free : (acc.2.inodes i).type = typeFree
  · have same : fsckOrphan true acc i = acc := if_pos free
    rw [same]
    refine pass fun removed => removed.member.2 ?_
    rw [← own]
    exact free
  · have live : Member c.inodes i := ⟨nonzero, own ▸ free⟩
    have exact_ := h.orphaned_iff live sorted
    by_cases lost : orphaned acc.2 i = true
    · have removed := exact_.mp lost
      have done : fsckOrphan true acc i = (acc.1 + 1, { acc.2 with
          inodes := Function.update acc.2.inodes i Inode.zero
          sb := { acc.2.sb with freeInodes := acc.2.sb.freeInodes + 1 } }) := by
        unfold fsckOrphan
        rw [if_neg free, if_pos lost]
        rfl
      rw [done]
      refine ⟨fun j removed out => ?_, fun j there => ?_, ?_, ?_⟩
      · by_cases here : j = i
        · subst here
          exact Function.update_self ..
        · exact (Function.update_of_ne here ..).trans (h.gone j removed ((later j here).mp out))
      · have other : j ≠ i := by
          rintro rfl
          exact there ⟨removed, notMem⟩
        refine (Function.update_of_ne other ..).trans (h.kept j fun both => there ⟨both.1, ?_⟩)
        exact (later j other).mpr both.2
      · rw [← Nat.add_assoc, ← h.count]
        refine freeSlots_release free ?_ fun j other => ?_
        · show (Function.update acc.2.inodes i Inode.zero i).type = typeFree
          rw [Function.update_self]
          rfl
        · show (Function.update acc.2.inodes i Inode.zero j).type = _
          rw [Function.update_of_ne other]
      · rw [h.rest]
        dsimp only
        rw [UInt32.add_assoc, UInt32.ofNat_add]
        rfl
    · have same : fsckOrphan true acc i = acc := by
        unfold fsckOrphan
        rw [if_neg free, if_neg lost]
      rw [same]
      exact pass fun removed => lost (exact_.mpr removed)

/-- **The orphan pass.** -/
theorem fsckOrphans_repair (c : State) : Sweeping c [] (fsckOrphans true c) := by
  have all : ∀ (is : List (Fin 256)) (acc : Nat × State), Sweeping c is acc →
      is.Pairwise (· < ·) → 0 ∉ is → (∀ j, j ≠ 0 → j ∉ is → ∀ k ∈ is, j < k) →
      Sweeping c [] (is.foldl (fsckOrphan true) acc) := by
    intro is
    induction is with
    | nil => exact fun acc h _ _ _ => h
    | cons i is ih =>
      intro acc h sorted noRoot before
      obtain ⟨first, sorted⟩ := List.pairwise_cons.mp sorted
      obtain ⟨nonzero, noRoot⟩ := not_or.mp (fun h => noRoot (List.mem_cons.mpr h))
      have split : ∀ j, j ≠ 0 → (j ∉ i :: is ↔ j < i) := by
        intro j hj
        refine ⟨fun out => before j hj out i List.mem_cons_self, fun less mem => ?_⟩
        rcases List.mem_cons.mp mem with rfl | later
        · exact lt_irrefl _ less
        · exact lt_asymm less (first j later)
      refine ih _ (h.next (Ne.symm nonzero) (fun mem => lt_irrefl _ (first i mem)) split) sorted noRoot ?_
      intro j hj out k mem
      by_cases here : j = i
      · exact here ▸ first k mem
      · exact before j hj (by simp [here, out]) k (List.mem_cons_of_mem _ mem)
  refine all _ (0, c) ⟨fun j removed out => ?_, fun j _ => rfl, (Nat.add_zero _).symm, ?_⟩
    ?_ (by simp) ?_
  · exact absurd (by simp [removed.member.1]) out
  · show c = { c with sb := { c.sb with freeInodes := c.sb.freeInodes + 0 } }
    rw [UInt32.add_zero]
  · exact (List.sortedLT_finRange 256).pairwise.filter _
  · intro j hj out
    exact absurd (by simp [hj]) out

end OrphanPass

/-! ### Torn records -/

/-- `journal_check_torn` on the sectors of a volume. -/
def tornIn (σ : Store) (jh : JournalHdr) : Nat :=
  (List.range' jh.committedSeq.toNat (jh.head.toNat - jh.committedSeq.toNat)).countP fun slot =>
    (σ (journalLogLba + slot % journalSlots / recsPerSector)).byteAt
      (slot % journalSlots % recsPerSector * recSize) != jNone

theorem journalCheckTorn_eq {w : World} (ready : Ready w) :
    journalCheckTorn w = tornIn w.sector w.catfs.jh := by
  unfold journalCheckTorn tornIn
  refine List.countP_congr fun slot _ => ?_
  have small : journalLogLba + slot % journalSlots / recsPerSector < 16484 := by
    simp only [journalLogLba, journalSlots_eq, recsPerSector_eq]
    omega
  unfold tornAt
  dsimp only
  rw [ready.dskRead small]

/-- The ring of the journal ends inside inode 0. -/
theorem tornIn_congr {σ τ : Store} {jh jh' : JournalHdr} (head : jh'.head = jh.head)
    (committed : jh'.committedSeq = jh.committedSeq) (log : ∀ n, 2 ≤ n → n < 10 → τ n = σ n)
    (root : imgInodes τ 0 = imgInodes σ 0) : tornIn τ jh' = tornIn σ jh := by
  have name : ∀ (ρ : Store) (k : Nat) (hk : k < 56),
      (ρ 10).byteAt k = (imgInodes ρ 0).name ⟨k, hk⟩ := by
    intro ρ k hk
    show _ = (ρ 10).byteAt (0 * 151 + k)
    rw [Nat.zero_mul, Nat.zero_add]
  have size : ∀ ρ : Store, (ρ 10).byteAt 60 = u32Byte (imgInodes ρ 0).size 1 := by
    intro ρ
    exact (u32Byte_u32At (fun k => (ρ 10).byteAt (0 * 151 + k)) 59 1 (by decide)).symm
  unfold tornIn
  rw [head, committed]
  refine List.countP_congr fun slot _ => ?_
  simp only [journalLogLba, journalSlots_eq, recsPerSector_eq, recSize]
  by_cases inside : slot % 204 < 200
  · rw [log _ (by omega) (by omega)]
  · have sector : 2 + slot % 204 / 25 = 10 := by omega
    rw [sector]
    by_cases last : slot % 204 % 25 * 20 = 60
    · rw [last, size, size, root]
    · rw [name _ _ (by omega), name _ _ (by omega), root]

/-! ### The image after a repair -/

/-- The bitmap after the first pass. -/
def bitsAfter (c : State) (seenOk : Bool) : Bitmap :=
  if seenOk then (fsckBitmap true (fsckSeen c.inodes) c.bitmap).2 else c.bitmap

/-- The state after both passes. -/
def repaired (c : State) (seenOk : Bool) : State :=
  (fsckOrphans true { c with bitmap := bitsAfter c seenOk }).2

/-- What is on the disk after a repair of `c`. -/
structure RepairedOn (c : State) (σ : Store) : Prop where
  inodes : imgInodes σ = c.inodes
  bitmap : imgBitmap σ = c.bitmap
  freeBlocks : (imgSuper σ).freeBlocks = c.sb.freeBlocks
  freeInodes : (imgSuper σ).freeInodes = c.sb.freeInodes
  mountable : Mountable (imgSuper σ)
  torn : tornIn σ (imgHeader σ) = 0

/-- The memory holds what is on the disk. -/
structure Loaded (u : World) : Prop where
  ready : Ready u
  inodes : imgInodes u.sector = u.catfs.inodes
  bitmap : imgBitmap u.sector = u.catfs.bitmap
  sb : imgSuper u.sector = u.catfs.sb
  jh : imgHeader u.sector = u.catfs.jh

/-- `catfs_sync` leaves the journal log alone. -/
theorem syncEvents_lba (c : State) : ∀ e ∈ syncEvents c, e.lba < 2 ∨ 10 ≤ e.lba := by
  intro e he
  simp only [syncEvents, tableEvents, bitmapEvents, List.cons_append, List.append_assoc,
    List.mem_cons, List.mem_append, List.mem_map, List.not_mem_nil, or_false] at he
  rcases he with rfl | ⟨s, -, rfl⟩ | ⟨s, -, rfl⟩ | rfl | rfl <;> simp [Ev.lba]
  omega

/-- Syncing repairs the image. -/
theorem repairedOn_sync {w : World} (ready : Ready w) (torn : tornIn w.sector w.catfs.jh = 0)
    (root : imgInodes w.sector 0 = w.catfs.inodes 0) :
    RepairedOn w.catfs (w.perform w.catfs.synced (syncEvents w.catfs)).sector := by
  have synced := synced_sync w
  have super : imgSuper (w.perform w.catfs.synced (syncEvents w.catfs)).sector = w.catfs.synced.sb :=
    synced.sb
  have header : imgHeader (w.perform w.catfs.synced (syncEvents w.catfs)).sector = w.catfs.synced.jh :=
    synced.jh
  refine ⟨imgInodes_sync w, synced.bitmap, by rw [super]; rfl, by rw [super]; rfl, ?_, ?_⟩
  · rw [super]
    exact ⟨ready.magic, ready.dataStart, ready.bitmapStart, ready.tableStart⟩
  · rw [← torn, header]
    refine tornIn_congr rfl rfl (fun n low high => ?_) ?_
    · have frame : Frame w.catfs w.catfs.synced := ⟨⟨rfl, rfl⟩, rfl, rfl⟩
      rw [World.sector_perform frame.toSameVolume]
      refine runEvents_of_forall_ne fun e mem => ?_
      have := syncEvents_lba _ e mem
      omega
    · rw [imgInodes_sync, root]

theorem repaired_frame (c : State) (seenOk : Bool) : Frame c (repaired c seenOk) :=
  Frame.trans (b := { c with bitmap := bitsAfter c seenOk }) ⟨⟨rfl, rfl⟩, rfl, rfl⟩
    (fsckOrphans_frame true _)

theorem repaired_sweeping (c : State) (seenOk : Bool) :
    Sweeping { c with bitmap := bitsAfter c seenOk } []
      (fsckOrphans true { c with bitmap := bitsAfter c seenOk }) :=
  fsckOrphans_repair _

/-- Neither pass touches the root or the journal. -/
theorem repaired_root (c : State) (seenOk : Bool) :
    (repaired c seenOk).inodes 0 = c.inodes 0 ∧ (repaired c seenOk).jh = c.jh := by
  have swept := repaired_sweeping c seenOk
  have jh := congrArg State.jh swept.rest
  unfold repaired
  exact ⟨swept.kept 0 fun both => both.1.member.1 rfl, jh⟩

/-- The number of problems the bitmap pass finds. -/
def bitProblems (c : State) (seenOk : Bool) : Nat :=
  if seenOk then (fsckBitmap true (fsckSeen c.inodes) c.bitmap).1 else 0

/-- The journal header with its counters made equal. -/
def disarmed (c : State) : State :=
  { c with jh := { c.jh with head := c.jh.committedSeq } }.stamped

theorem disarmed_frame (c : State) : Frame c (disarmed c) := ⟨⟨rfl, rfl⟩, rfl, rfl⟩

/-- After the passes and the header, before the sync. -/
def afterPasses (w : World) : World :=
  if journalCheckTorn w ≠ 0 then w.perform (disarmed w.catfs) [.header (disarmed w.catfs).jh] else w

theorem afterPasses_ready {w : World} (ready : Ready w) : Ready (afterPasses w) := by
  unfold afterPasses
  split
  · exact ready.perform (disarmed_frame _) _
  · exact ready

theorem tornIn_even {σ : Store} {jh : JournalHdr} (even : jh.head = jh.committedSeq) :
    tornIn σ jh = 0 := by
  unfold tornIn
  rw [even, Nat.sub_self]
  rfl

/-- The header is all that changes, and nothing is torn any more. -/
theorem afterPasses_spec {w : World} (ready : Ready w) :
    (afterPasses w).catfs = { w.catfs with jh := (afterPasses w).catfs.jh } ∧
      (∀ n, n ≠ 1 → (afterPasses w).sector n = w.sector n) ∧
      tornIn (afterPasses w).sector (afterPasses w).catfs.jh = 0 := by
  unfold afterPasses
  by_cases torn : journalCheckTorn w = 0
  · rw [if_neg (not_not.mpr torn)]
    exact ⟨rfl, fun _ _ => rfl, by rw [← journalCheckTorn_eq ready, torn]⟩
  · rw [if_pos torn]
    refine ⟨rfl, fun n other => ?_, tornIn_even rfl⟩
    rw [World.sector_perform (disarmed_frame _).toSameVolume]
    refine runEvents_of_forall_ne fun e mem => ?_
    rw [List.mem_singleton.mp mem]
    exact fun h => other h.symm

/-- The number of problems of a repair. -/
def problems (u : World) (seenOk : Bool) : Nat :=
  bitProblems u.catfs seenOk +
    (fsckOrphans true { u.catfs with bitmap := bitsAfter u.catfs seenOk }).1 +
    journalCheckTorn (u.perform (repaired u.catfs seenOk) [])

/-- What a repair comes to. -/
theorem fsckMounted_eq {u : World} (ready : Ready u) (seenOk : Bool) :
    (fsckMounted u true seenOk).1 =
      if problems u seenOk = 0 then u.perform (repaired u.catfs seenOk) []
      else (catfsSync (afterPasses (u.perform (repaired u.catfs seenOk) []))).1 := by
  have bits : (if seenOk then fsckBitmap true (fsckSeen u.catfs.inodes) u.catfs.bitmap
      else (0, u.catfs.bitmap)) = (bitProblems u.catfs seenOk, bitsAfter u.catfs seenOk) := by
    unfold bitProblems bitsAfter
    cases seenOk with
    | true => simp only [if_true, Prod.mk.eta]
    | false => simp only [Bool.false_eq_true, if_false]
  have state : ∀ c, ({ u.mapCatfs fun c => { c with bitmap := bitsAfter u.catfs seenOk } with catfs := c } :
      World) = u.perform c [] := by
    intro c
    simp [World.perform, physTrace, World.mapCatfs]
  have passed := ready.perform (repaired_frame u.catfs seenOk) []
  have header : ∀ w, Ready w →
      (if (true && journalCheckTorn w != 0) = true then
        (journalFlushHeader (w.mapJh fun h => { h with head := h.committedSeq })).1 else w) =
      afterPasses w := by
    intro w ready
    unfold afterPasses
    by_cases torn : journalCheckTorn w = 0
    · simp [torn]
    · rw [if_pos (by simp [torn]), if_pos torn]
      let c : State := { w.catfs with jh := { w.catfs.jh with head := w.catfs.jh.committedSeq } }
      have frame : Frame w.catfs c := ⟨⟨rfl, rfl⟩, rfl, rfl⟩
      have moved : w.mapJh (fun h => { h with head := h.committedSeq }) = w.perform c [] :=
        World.mapCatfs_eq_perform ..
      rw [moved, journalFlushHeader_eq (ready.perform frame []),
        World.perform_perform frame.toSameVolume]
      rfl
  have inner : (u.mapCatfs fun c => { c with bitmap := bitsAfter u.catfs seenOk }).catfs =
      { u.catfs with bitmap := bitsAfter u.catfs seenOk } := rfl
  unfold problems repaired
  unfold repaired at passed
  unfold fsckMounted
  rw [bits]
  dsimp only
  rw [inner]
  generalize fsckOrphans true { u.catfs with bitmap := bitsAfter u.catfs seenOk } = pass at passed ⊢
  obtain ⟨n₂, c₂⟩ := pass
  dsimp only at passed ⊢
  rw [state, header _ passed]
  by_cases none_ : bitProblems u.catfs seenOk + n₂ + journalCheckTorn (u.perform c₂ []) = 0
  · have torn : journalCheckTorn (u.perform c₂ []) = 0 := (Nat.add_eq_zero_iff.mp none_).2
    rw [if_neg (by simp [none_]), if_pos none_, afterPasses, if_neg (not_not.mpr torn)]
  · rw [if_pos ((Bool.true_and _).trans (bne_iff_ne.mpr none_)), if_neg none_]

/-- **Repair.** The image after a repair is what the two passes left in memory, and
nothing on it is torn. -/
theorem fsckMounted_repair {u : World} (loaded : Loaded u) (seenOk : Bool) :
    RepairedOn (repaired u.catfs seenOk) (fsckMounted u true seenOk).1.sector := by
  have ready := loaded.ready
  have frame := repaired_frame u.catfs seenOk
  have passed := ready.perform frame []
  obtain ⟨root, jh⟩ := repaired_root u.catfs seenOk
  have sector : (u.perform (repaired u.catfs seenOk) []).sector = u.sector :=
    World.sector_perform frame.toSameVolume []
  rw [fsckMounted_eq ready seenOk]
  by_cases quiet : problems u seenOk = 0
  · rw [if_pos quiet, sector]
    obtain ⟨found, torn⟩ := Nat.add_eq_zero_iff.mp quiet
    obtain ⟨none₁, none₂⟩ := Nat.add_eq_zero_iff.mp found
    have bits : bitsAfter u.catfs seenOk = u.catfs.bitmap := by
      unfold bitProblems at none₁
      unfold bitsAfter
      split
      · rename_i ok
        rw [if_pos ok] at none₁
        rw [fsckBitmap_same (fsckBitmap_eq_zero.mp none₁)]
      · rfl
    have kept : repaired u.catfs seenOk = u.catfs := by
      have same : ({ u.catfs with bitmap := u.catfs.bitmap } : State) = u.catfs := rfl
      rw [bits, same] at none₂
      have parented : Parented u.catfs := fsckOrphans_eq_zero.mp none₂
      unfold repaired
      rw [bits, same, fsckOrphans_same parented]
    rw [kept] at torn ⊢
    rw [World.perform_nil, journalCheckTorn_eq ready] at torn
    refine ⟨loaded.inodes, loaded.bitmap, by rw [loaded.sb], by rw [loaded.sb], ?_, ?_⟩
    · rw [loaded.sb]
      exact ready.mountable
    · rw [loaded.jh]
      exact torn
  · rw [if_neg quiet]
    clear quiet jh
    generalize repaired u.catfs seenOk = c at frame passed root sector ⊢
    rw [catfsSync_eq (afterPasses_ready passed)]
    obtain ⟨state, sectors, torn⟩ := afterPasses_spec passed
    have first : imgInodes (afterPasses (u.perform c [])).sector 0 =
        (afterPasses (u.perform c [])).catfs.inodes 0 := by
      rw [imgInodes_congr fun n low _ => sectors n (by omega), sector, loaded.inodes, ← root]
      exact (congrFun (congrArg State.inodes state) 0).symm
    have image := repairedOn_sync (afterPasses_ready passed) torn first
    have inodes := congrArg State.inodes state
    have bitmap := congrArg State.bitmap state
    have sb := congrArg State.sb state
    exact ⟨image.inodes.trans inodes, image.bitmap.trans bitmap,
      image.freeBlocks.trans (congrArg Super.freeBlocks sb),
      image.freeInodes.trans (congrArg Super.freeInodes sb), image.mountable, image.torn⟩

theorem fsckMounted_volume {u : World} (ready : Ready u) (seenOk : Bool) :
    SameVolume u.catfs (fsckMounted u true seenOk).1.catfs ∧
      (fsckMounted u true seenOk).1.drives = u.drives := by
  have frame := repaired_frame u.catfs seenOk
  have passed := ready.perform frame []
  rw [fsckMounted_eq ready seenOk]
  generalize repaired u.catfs seenOk = c at frame passed ⊢
  split
  · exact ⟨frame.toSameVolume, rfl⟩
  · rw [catfsSync_eq (afterPasses_ready passed)]
    obtain ⟨state, -, -⟩ := afterPasses_spec passed
    have drive := congrArg State.diskDrive state
    have offset := congrArg State.partitionOffset state
    refine ⟨⟨drive.trans frame.drive, offset.trans frame.offset⟩, ?_⟩
    unfold afterPasses
    split
    · rfl
    · rfl

/-! ### A second fsck -/

/-- An inode in use stores the block number `b`. -/
def Stored (inodes : Fin 256 → Inode) (b : Nat) : Prop :=
  ∃ i, (inodes i).type ≠ typeFree ∧ Names (inodes i) b

instance (n : Inode) (b : Nat) : Decidable (Names n b) := by
  unfold Names
  infer_instance

instance (inodes : Fin 256 → Inode) (b : Nat) : Decidable (Stored inodes b) := by
  unfold Stored
  infer_instance

/-- Whether the first pass leaves block `b` marked. -/
def taken (c : State) (seenOk : Bool) (b : Nat) : Bool :=
  if seenOk ∧ b ≠ 0 then decide (Stored c.inodes b) else bmTest c.bitmap b

/-- The images that one repair puts in order; `ok₁` and `ok₂` say whether the two runs
got their scratch memory. Every inode in use hangs below the root or is removed by the
pass, no block number is stored only in what is removed, and the superblock counts
what is free. -/
structure Tidy (c : State) (ok₁ ok₂ : Bool) : Prop where
  connected : ∀ i, Member c.inodes i → Rooted (dirAbove c.inodes) 0 i ∨ Removed c.inodes i
  blocks : ok₂ = true → ∀ b, b ≠ 0 → b < 16384 → (taken c ok₁ b = true ↔
    ∃ i, (c.inodes i).type ≠ typeFree ∧ ¬Removed c.inodes i ∧ Names (c.inodes i) b)
  freeBlocks : c.sb.freeBlocks.toNat = (List.range blocksMax).countP fun b => !taken c ok₁ b
  freeInodes : c.sb.freeInodes.toNat = freeSlots c.inodes

/-- The image `σ` after a repair, of which a second fsck reported `r` problems: nothing
was left, every inode in use has a directory above it and hangs below the root, and the
superblock counts what is free. -/
structure Converged (σ : Store) (r : Int) : Prop where
  again : r = 0
  parented : ∀ i, Member (imgInodes σ) i → HasDirectory (imgInodes σ) i
  rooted : ∀ i, Member (imgInodes σ) i → Rooted (dirAbove (imgInodes σ)) 0 i
  freeBlocks : (imgSuper σ).freeBlocks.toNat = clearBits (imgBitmap σ)
  freeInodes : (imgSuper σ).freeInodes.toNat = freeSlots (imgInodes σ)

section Second

variable {c : State} {ok₁ ok₂ : Bool}

theorem repaired_inodes (c : State) (seenOk : Bool) (i : Fin 256) :
    (Removed c.inodes i → (repaired c seenOk).inodes i = Inode.zero) ∧
    (¬Removed c.inodes i → (repaired c seenOk).inodes i = c.inodes i) := by
  have swept := repaired_sweeping c seenOk
  unfold repaired
  exact ⟨fun gone => swept.gone i gone (List.not_mem_nil),
    fun stays => swept.kept i fun both => stays both.1⟩

/-- What is in use after the repair. -/
theorem repaired_live (i : Fin 256) :
    ((repaired c ok₁).inodes i).type ≠ typeFree ↔
      (c.inodes i).type ≠ typeFree ∧ ¬Removed c.inodes i := by
  obtain ⟨gone, kept⟩ := repaired_inodes c ok₁ i
  by_cases removed : Removed c.inodes i
  · rw [gone removed]
    exact iff_of_false (fun live => live rfl) fun both => both.2 removed
  · rw [kept removed]
    exact (and_iff_left removed).symm

theorem connected_iff (c : State) (ok₁ : Bool) :
    (∀ i, Member (repaired c ok₁).inodes i → Rooted (dirAbove (repaired c ok₁).inodes) 0 i) ↔
      ∀ i, Member c.inodes i → Rooted (dirAbove c.inodes) 0 i ∨ Removed c.inodes i := by
  have left : ∀ {i p : Fin 256}, ¬Removed c.inodes i →
      (dirAbove (repaired c ok₁).inodes i = some p ↔
        dirAbove c.inodes i = some p ∧ ¬Removed c.inodes p) := by
    intro i p stays
    rw [dirAbove_eq_some, dirAbove_eq_some, (repaired_inodes c ok₁ i).2 stays, and_assoc]
    refine and_congr_right fun _ => ?_
    by_cases removed : Removed c.inodes p
    · rw [(repaired_inodes c ok₁ p).1 removed]
      exact iff_of_false (fun dir => by cases dir) fun both => both.2 removed
    · rw [(repaired_inodes c ok₁ p).2 removed]
      exact (and_iff_left removed).symm
  have out : ¬Member c.inodes 0 := fun member => member.1 rfl
  refine Iff.trans (forall_congr' fun i => ?_) (rooted_sweep_iff out left)
  unfold Member
  rw [repaired_live, ← and_assoc]
  exact and_imp

theorem bmTest_bitsAfter (range : ∀ i, (c.inodes i).type ≠ typeFree → InRange (c.inodes i)) {b : Nat}
    (small : b < 16384) : bmTest (bitsAfter c ok₁) b = taken c ok₁ b := by
  unfold bitsAfter taken
  cases ok₁ with
  | false => simp
  | true =>
    simp only [if_true, true_and]
    rw [bmTest_fsckBitmap]
    by_cases zero : b = 0
    · rw [if_neg (fun h => h.1 zero), if_neg (not_not.mpr zero)]
    · rw [if_pos ⟨zero, small⟩, if_pos zero, Bool.eq_iff_iff, bmTest_fsckSeen range, decide_eq_true_eq]
      rfl

theorem repaired_bitmap (c : State) (seenOk : Bool) :
    (repaired c seenOk).bitmap = bitsAfter c seenOk := by
  have swept := repaired_sweeping c seenOk
  have bitmap := congrArg State.bitmap swept.rest
  unfold repaired
  exact bitmap

theorem agrees_iff (range : ∀ i, (c.inodes i).type ≠ typeFree → InRange (c.inodes i)) :
    Agrees (repaired c ok₁) ↔ ∀ b, b ≠ 0 → b < 16384 → (taken c ok₁ b = true ↔
      ∃ i, (c.inodes i).type ≠ typeFree ∧ ¬Removed c.inodes i ∧ Names (c.inodes i) b) := by
  have range' : ∀ i, ((repaired c ok₁).inodes i).type ≠ typeFree → InRange ((repaired c ok₁).inodes i) := by
    intro i live
    obtain ⟨live, stays⟩ := (repaired_live i).mp live
    rw [(repaired_inodes c ok₁ i).2 stays]
    exact range i live
  unfold Agrees
  refine forall_congr' fun b => forall_congr' fun _ => forall_congr' fun small => ?_
  rw [repaired_bitmap, bmTest_bitsAfter range small, Bool.eq_iff_iff, bmTest_fsckSeen range']
  refine iff_congr Iff.rfl (exists_congr fun i => ?_)
  rw [repaired_live, and_assoc]
  refine and_congr_right fun _ => and_congr_right fun stays => ?_
  rw [(repaired_inodes c ok₁ i).2 stays]

theorem clearBits_repaired (range : ∀ i, (c.inodes i).type ≠ typeFree → InRange (c.inodes i)) :
    clearBits (repaired c ok₁).bitmap = (List.range blocksMax).countP fun b => !taken c ok₁ b := by
  rw [repaired_bitmap]
  unfold clearBits
  refine List.countP_congr fun b mem => ?_
  rw [bmTest_bitsAfter range (List.mem_range.mp mem)]

/-- Both counts go up by what is removed. -/
theorem freeInodes_repaired :
    (repaired c ok₁).sb.freeInodes.toNat = freeSlots (repaired c ok₁).inodes ↔
      c.sb.freeInodes.toNat = freeSlots c.inodes := by
  have swept := repaired_sweeping c ok₁
  have counter := congrArg (fun c => c.sb.freeInodes) swept.rest
  have count := swept.count
  have bound := freeSlots_le (fsckOrphans true { c with bitmap := bitsAfter c ok₁ }).2.inodes
  unfold repaired
  generalize fsckOrphans true { c with bitmap := bitsAfter c ok₁ } = pass at counter count bound ⊢
  dsimp only at counter count
  have small := c.sb.freeInodes.toNat_lt
  rw [counter, count, UInt32.toNat_add, UInt32.toNat_ofNat']
  omega

theorem repaired_sb (c : State) (seenOk : Bool) :
    (repaired c seenOk).sb.freeBlocks = c.sb.freeBlocks := by
  have swept := repaired_sweeping c seenOk
  have count := congrArg (fun c => c.sb.freeBlocks) swept.rest
  unfold repaired
  exact count

end Second

/-- Mounting a volume with the layout. -/
theorem mount_loaded {w : World} {drive : Int} {off : UInt32} (reliable : Reliable w.drives drive)
    (layout : Mountable (imgSuper (w.onVolume drive off).sector)) :
    ∃ u, catfsMountAt w drive off = (u, 0) ∧ Loaded u ∧ u.drives = w.drives ∧
      u.catfs = mountState drive off (w.onVolume drive off).sector ∧
      ∀ n, n ≠ 0 → u.sector n = (w.onVolume drive off).sector n := by
  obtain ⟨u, mount, state, drives, super, sectors⟩ := catfsMountAt_state reliable rfl layout.magic
    layout.tableStart layout.bitmapStart
  refine ⟨u, mount, ⟨⟨?_, ?_, ?_, ?_, ?_, ?_⟩, ?_, ?_, ?_, ?_⟩, drives, state, sectors⟩
  · rw [state, drives]
    exact reliable
  · rw [state]
    rfl
  · rw [state]
    exact layout.dataStart
  · rw [state]
    exact layout.bitmapStart
  · rw [state]
    exact layout.tableStart
  · rw [state]
    exact layout.magic
  · rw [state, imgInodes_congr fun n low _ => sectors n (by omega)]
    rfl
  · rw [state, imgBitmap_congr fun n low _ => sectors n (by omega)]
    rfl
  · rw [super, state]
    rfl
  · rw [state, imgHeader_congr (sectors 1 (by decide))]
    rfl

theorem World.sector_congr {w v : World} (disk : v.disk = w.disk)
    (drive : v.catfs.diskDrive = w.catfs.diskDrive)
    (offset : v.catfs.partitionOffset = w.catfs.partitionOffset) : v.sector = w.sector := by
  unfold World.sector World.at_ World.addr
  rw [disk, drive, offset]

/-- The image after a repair, and what a second run reports on it. -/
theorem fsck_twice {w w₁ w₂ : World} {drive : Int} {off : UInt32} {ok₁ ok₂ : Bool} {r₁ r₂ : Int}
    (reliable : Reliable w.drives drive)
    (layout : Mountable (imgSuper (w.onVolume drive off).sector))
    (first : catfsFsckAt w drive off true ok₁ = (w₁, r₁))
    (second : catfsFsckAt w₁ drive off false ok₂ = (w₂, r₂)) :
    RepairedOn (repaired (mountState drive off (w.onVolume drive off).sector) ok₁)
      (w₁.onVolume drive off).sector ∧
    (r₂ = 0 ↔ (ok₂ = true → Agrees (mountState drive off (w₁.onVolume drive off).sector)) ∧
      Parented (mountState drive off (w₁.onVolume drive off).sector)) := by
  obtain ⟨u, mount, loaded, drives, state, -⟩ := mount_loaded reliable layout
  obtain ⟨volume, drives'⟩ := fsckMounted_volume loaded.ready ok₁
  have image := fsckMounted_repair loaded ok₁
  have result := (Prod.mk.inj ((catfsFsckAt_eq true ok₁ mount).symm.trans first)).1
  rw [state] at volume image
  generalize (fsckMounted u true ok₁).1 = v at volume drives' image result
  have onVolume : (w₁.onVolume drive off).sector = v.sector := by
    refine World.sector_congr ?_ volume.drive.symm volume.offset.symm
    rw [← result]
    rfl
  rw [onVolume]
  refine ⟨image, ?_⟩
  have reliable₁ : Reliable w₁.drives drive := by
    rw [← result]
    show Reliable v.drives drive
    rw [drives', drives]
    exact reliable
  have layout₁ : Mountable (imgSuper (w₁.onVolume drive off).sector) := by
    rw [onVolume]
    exact image.mountable
  obtain ⟨u₁, mount₁, loaded₁, -, state₁, sectors₁⟩ := mount_loaded reliable₁ layout₁
  have count := (Prod.mk.inj ((catfsFsckAt_eq false ok₂ mount₁).symm.trans second)).2
  have torn : journalCheckTorn u₁ = 0 := by
    rw [journalCheckTorn_eq loaded₁.ready, ← image.torn, ← onVolume, ← loaded₁.jh]
    refine tornIn_congr ?_ ?_ (fun n low _ => sectors₁ n (by omega))
      (congrFun (imgInodes_congr fun n low _ => sectors₁ n (by omega)) 0)
    all_goals rw [imgHeader_congr (sectors₁ 1 (by decide))]
  rw [onVolume] at state₁
  rw [← state₁]
  constructor
  · intro zero
    exact fsckMounted_eq_zero (Int.ofNat_eq_zero.mp (count.trans zero))
  · rintro ⟨agrees, parented⟩
    rw [← count, fsckMounted_same agrees parented torn]
    rfl

/-- A file in a directory with a larger number that is itself in no directory. -/
def lostState : State :=
  { formatState 0 2048 [] 0 with
    inodes := Function.update (Function.update (formatState 0 2048 [] 0).inodes 1
      { Inode.zero with type := typeFile, parent := 2 }) 2 { Inode.zero with type := typeDir, parent := 5 } }

def lostWorld : World :=
  { blankWorld with catfs := lostState }.perform lostState.synced (syncEvents lostState)

theorem lostWorld_reliable : Reliable lostWorld.drives 0 := blankWorld_reliable

theorem lostWorld_image : imgInodes (lostWorld.onVolume 0 2048).sector = lostState.inodes ∧
    imgSuper (lostWorld.onVolume 0 2048).sector = lostState.synced.sb :=
  ⟨imgInodes_sync { blankWorld with catfs := lostState },
    (synced_sync { blankWorld with catfs := lostState }).sb⟩

theorem lostWorld_layout : Mountable (imgSuper (lostWorld.onVolume 0 2048).sector) := by
  rw [lostWorld_image.2]
  exact ⟨rfl, rfl, rfl, rfl⟩

theorem lostWorld_range (i : Fin 256) : InRange (imgInodes (lostWorld.onVolume 0 2048).sector i) := by
  have all : ∀ i, (∀ d, ((lostState.inodes i).blocks d).toNat < 16384) ∧
      (lostState.inodes i).indirect.toNat < 16384 ∧ (lostState.inodes i).dindirect.toNat < 16384 := by
    decide +kernel
  rw [lostWorld_image.1]
  exact ⟨(all i).1, (all i).2.1, (all i).2.2⟩

end AtmKoala.Catfs
