import AtmKoala.Catfs.Reach

/-!
Power cuts during an operation.

The writes an operation issues are a list of events (`Journaled.trace`); a power
cut leaves the disk as some prefix of them did (`crash_sector`). Two questions
are settled here for every cut point:

* torn records: the header on the disk, with its two equal counters, is not
  written before `journal_commit`, so `journal_check_torn` never reports
  anything (`torn_never_reported`);
* block marks: as long as the operation takes no block, every block reachable
  from an inode on the disk is marked in the bitmap on the disk
  (`crash_marked`). Taking blocks breaks this, because pointer blocks and the
  inode are written before the bitmap.
-/

namespace AtmKoala.Catfs

open Lib

/-! ### The events of a journaled change -/

/-- The world a power cut leaves: the disk after the first `k` writes, and
nothing in memory that matters. -/
def World.cut (w : World) (writes : List ((Int × Nat) × Sector)) (k : Nat) (c : State) : World :=
  { w with disk := applyWrites w.disk (writes.take k), catfs := c }

/-- Mounting the volume again after the cut. -/
def World.mountCut (w : World) (writes : List ((Int × Nat) × Sector)) (k : Nat) (c : State) :
    World × Int :=
  catfsMountAt (w.cut writes k c) w.catfs.diskDrive w.catfs.partitionOffset

/-- A cut after `k` writes is a cut after `k` events. -/
theorem crash_sector (w : World) (es : List Ev) (k : Nat) (c : State) :
    ((w.cut (physTrace w.at_ w.sector es) k c).onVolume w.catfs.diskDrive
      w.catfs.partitionOffset).sector = runEvents w.sector (es.take k) := by
  rw [← World.sector_perform (c := w.catfs) ⟨rfl, rfl⟩]
  unfold World.cut
  rw [physTrace_take]
  rfl

/-- The events of a journaled change from `w` to `w'`. -/
def journalEvents (w w' : World) (taken : List Ev) (r : JournalRec) (shrunk : List Ev)
    (i : Fin 256) (n : Inode) (tail : List Ev) : List Ev :=
  taken ++ .record w.catfs.ringSlot r ::
    (shrunk ++ .inode i n :: (tail ++ [.header w'.catfs.jh]))

/-- What the events of a journaled change are: first the blocks that are taken
and filled, the record, the blocks that shrink, and then the metadata. -/
structure JournalTrace (i : Fin 256) (n : Inode) (w w₁ w₂ w' : World)
    (taken : List Ev) (r : JournalRec) (shrunk tail : List Ev) : Prop where
  typed : r.Typed
  seq : r.seq = w.catfs.nextSeq + 1
  taken_block : ∀ e ∈ taken, ∃ b sec, e = Ev.block b sec ∧
    (Grew w w₁ ∨ ∃ q, q.isPtr = false ∧ w.slots (i, q) ≠ 0 ∧ (w.slots (i, q)).toNat = b.val)
  sector₁ : w₁.sector = runEvents w.sector taken
  shrinks : Shrinking (Ev.apply w₁.sector (.record w.catfs.ringSlot r)) shrunk
  shrunk_block : ∀ e ∈ shrunk, e.isBlock = true
  sector₂ : w₂.sector = runEvents (Ev.apply w₁.sector (.record w.catfs.ringSlot r)) shrunk
  shape : Tail w.catfs w'.catfs tail
  trace : w' = w.perform w'.catfs (journalEvents w w' taken r shrunk i n tail)

theorem Journaled.trace {i : Fin 256} {D : Pos → Prop} {n : Inode} {w w₁ w₂ w' : World}
    (h : Journaled i D n w w₁ w₂ w') :
    ∃ taken r shrunk tail, JournalTrace i n w w₁ w₂ w' taken r shrunk tail := by
  obtain ⟨taken, grown, blocks⟩ := h.grows.performed
  obtain ⟨r, typed, seq, drops⟩ := h.record
  obtain ⟨shrunk, dropped, shrinks, blocks'⟩ := drops.performed
  obtain ⟨tail, shape, events⟩ := h.events
  have sameG : SameVolume w.catfs w₁.catfs := h.grows.only.sameVolume
  have sameL : SameVolume w₁.catfs w₁.catfs.logged := (logged_frame _).toSameVolume
  have sectorL : (w₁.perform w₁.catfs.logged [.record w.catfs.ringSlot r]).sector =
      Ev.apply w₁.sector (.record w.catfs.ringSlot r) := World.sector_perform sameL _
  refine ⟨taken, r, shrunk, tail, typed, seq, fun e he => ?_, ?_, sectorL ▸ shrinks,
    fun e he => ?_, ?_, shape, ?_⟩
  · obtain ⟨b, sec, rfl, -, quiet⟩ := blocks e he
    exact ⟨b, sec, rfl, quiet⟩
  · conv_lhs => rw [grown]
    exact World.sector_perform sameG _
  · obtain ⟨b, sec, rfl, -⟩ := blocks' e he
    rfl
  · rw [dropped, World.sector_perform drops.only.sameVolume, sectorL]
  · have logged : w₁.perform w₁.catfs.logged [.record w.catfs.ringSlot r] =
        w.perform w₁.catfs.logged (taken ++ [.record w.catfs.ringSlot r]) := by
      conv_lhs => rw [grown]
      rw [World.perform_perform sameG]
      rfl
    have sameL' : SameVolume w.catfs w₁.catfs.logged := ⟨sameG.drive, sameG.offset⟩
    have dropped' : w₂ = w.perform w₂.catfs (taken ++ [.record w.catfs.ringSlot r] ++ shrunk) := by
      conv_lhs => rw [dropped, logged]
      rw [World.perform_perform sameL']
    have same₂ : SameVolume w.catfs w₂.catfs :=
      ⟨drops.only.drive.trans sameG.drive, drops.only.offset.trans sameG.offset⟩
    conv_lhs => rw [events, dropped']
    rw [World.perform_perform same₂]
    simp only [journalEvents, List.append_assoc, List.cons_append, List.nil_append]

/-! ### Torn records -/

/-- Equal counters leave `journal_check_torn` nothing to look at. -/
theorem journalCheckTorn_of_even {w : World} (even : w.catfs.jh.head = w.catfs.jh.committedSeq) :
    journalCheckTorn w = 0 := by
  unfold journalCheckTorn
  simp only [even, Nat.sub_self]
  rfl

/-- If every superblock written is `sb`, the superblock is the old one or `sb`. -/
theorem imgSuper_or {σ : Store} {es : List Ev} {sb : Super}
    (h : ∀ e ∈ es, e.lba = 0 → e = .super sb) :
    imgSuper (runEvents σ es) = imgSuper σ ∨ imgSuper (runEvents σ es) = sb := by
  induction es generalizing σ with
  | nil => exact Or.inl rfl
  | cons e es ih =>
    rw [runEvents_cons]
    rcases @ih (e.apply σ) fun f hf => h f (List.mem_cons_of_mem _ hf) with same | new
    · by_cases he : e.lba = 0
      · refine Or.inr ?_
        rw [same, h e List.mem_cons_self he, imgSuper_super]
      · refine Or.inl ?_
        rw [same]
        exact imgSuper_congr (apply_of_ne he)
    · exact Or.inr new

theorem Tail.super_only {c c' : State} {tail : List Ev} (h : Tail c c' tail) :
    ∀ e ∈ tail, e.lba = 0 → e = .super c'.sb := by
  intro e he h0
  have notBitmap : e ∉ bitmapEvents c'.bitmap := by
    intro hb
    have := bitmapEvents_lba e hb
    omega
  cases h with
  | super _ => exact List.mem_singleton.mp he
  | superBitmap => exact (List.mem_cons.mp he).resolve_right notBitmap
  | bitmapSuper => exact List.mem_singleton.mp ((List.mem_append.mp he).resolve_left notBitmap)

namespace JournalTrace

variable {i : Fin 256} {n : Inode} {w w₁ w₂ w' : World} {taken shrunk tail : List Ev}
  {r : JournalRec}

theorem taken_isBlock (h : JournalTrace i n w w₁ w₂ w' taken r shrunk tail) :
    ∀ e ∈ taken, 100 ≤ e.lba := by
  intro e he
  obtain ⟨b, sec, rfl, -⟩ := h.taken_block e he
  simp [Ev.lba]

theorem shrunk_lba (h : JournalTrace i n w w₁ w₂ w' taken r shrunk tail) :
    ∀ e ∈ shrunk, 100 ≤ e.lba := by
  intro e he
  have := h.shrunk_block e he
  cases e with
  | block b sec => simp [Ev.lba]
  | _ => simp [Ev.isBlock] at this

/-- Only the last event goes to the header, and the superblock is written as it
is in memory at the end. -/
theorem events_lba (h : JournalTrace i n w w₁ w₂ w' taken r shrunk tail) :
    ∀ e ∈ journalEvents w w' taken r shrunk i n tail,
      (e.lba = 1 → e = .header w'.catfs.jh) ∧ (e.lba = 0 → e = .super w'.catfs.sb) := by
  intro e he
  simp only [journalEvents, List.mem_append, List.mem_cons, List.not_mem_nil, or_false] at he
  rcases he with he | rfl | he | rfl | he | rfl
  · have := h.taken_isBlock e he
    exact ⟨fun _ => by omega, fun _ => by omega⟩
  · have : 2 ≤ (Ev.record w.catfs.ringSlot r).lba := Nat.le_add_right 2 _
    exact ⟨fun _ => by omega, fun _ => by omega⟩
  · have := h.shrunk_lba e he
    exact ⟨fun _ => by omega, fun _ => by omega⟩
  · have : 10 ≤ (Ev.inode i n).lba := Nat.le_add_right 10 _
    exact ⟨fun _ => by omega, fun _ => by omega⟩
  · have := h.shape.lba e he
    exact ⟨fun _ => by omega, h.shape.super_only e he⟩
  · have : (Ev.header w'.catfs.jh).lba = 1 := rfl
    exact ⟨fun _ => rfl, fun _ => by omega⟩

/-- The superblock on the disk is good at every cut point. -/
theorem cut_mountable (h : JournalTrace i n w w₁ w₂ w' taken r shrunk tail) (settled : Settled w)
    (ready' : Ready w') (k : Nat) :
    Mountable (imgSuper (runEvents w.sector
      ((journalEvents w w' taken r shrunk i n tail).take k))) := by
  have only := fun e he => (h.events_lba e (List.mem_of_mem_take (i := k) he)).2
  rcases @imgSuper_or w.sector _ _ only with same | new
  · rw [same]
    exact settled.mountable
  · rw [new]
    exact ready'.mountable

/-- Mounting after a cut before the header: it works, and the journal header is
the one from before the operation. -/
theorem mount_cut (h : JournalTrace i n w w₁ w₂ w' taken r shrunk tail) (settled : Settled w)
    (ready' : Ready w') {k : Nat} (hk : k < (journalEvents w w' taken r shrunk i n tail).length)
    (c : State) :
    ∃ v, w.mountCut (physTrace w.at_ w.sector (journalEvents w w' taken r shrunk i n tail)) k c =
      (v, 0) ∧ journalCheckTorn v = 0 := by
  have mountable := h.cut_mountable settled ready' k
  have header : imgHeader (runEvents w.sector
      ((journalEvents w w' taken r shrunk i n tail).take k)) = imgHeader w.sector := by
    -- the last event is the only one that goes there, and it is cut off
    have init : journalEvents w w' taken r shrunk i n tail =
        (taken ++ .record w.catfs.ringSlot r :: (shrunk ++ .inode i n :: tail)) ++
          [.header w'.catfs.jh] := by simp [journalEvents]
    rw [init, List.length_append, List.length_singleton] at hk
    rw [init, List.take_append_of_le_length (by omega)]
    refine imgHeader_runEvents fun e he h1 => ?_
    have mem := List.mem_of_mem_take he
    have isHeader := (h.events_lba e (by rw [init]; exact List.mem_append_left _ mem)).1 h1
    subst isHeader
    simp only [List.mem_append, List.mem_cons, reduceCtorEq, false_or] at mem
    rcases mem with he | he | he
    · have := h.taken_isBlock _ he
      omega
    · have := h.shrunk_lba _ he
      omega
    · have := h.shape.lba _ he
      omega
  obtain ⟨v, mount, state, -, -, -⟩ := catfsMountAt_state (w := w.cut _ k c)
    settled.sound.ready.reliable (crash_sector w _ k c) mountable.magic mountable.tableStart
    mountable.bitmapStart
  refine ⟨v, mount, journalCheckTorn_of_even ?_⟩
  rw [state]
  show (imgHeader _).head = (imgHeader _).committedSeq
  rw [header, settled.header]
  exact settled.even.1

end JournalTrace

/-- Mounting an undisturbed disk reports nothing either. -/
theorem Settled.mount_not_torn {w : World} (h : Settled w) (c : State) :
    ∃ v, catfsMountAt { w with catfs := c } w.catfs.diskDrive w.catfs.partitionOffset = (v, 0) ∧
      journalCheckTorn v = 0 := by
  obtain ⟨v, mount, state, -, -, -⟩ := @catfsMountAt_state { w with catfs := c } _
    w.catfs.partitionOffset h.sound.ready.reliable w.sector rfl h.mountable.magic
    h.mountable.tableStart h.mountable.bitmapStart
  refine ⟨v, mount, journalCheckTorn_of_even ?_⟩
  rw [state]
  show (imgHeader _).head = (imgHeader _).committedSeq
  rw [h.header]
  exact h.even.1

/-- The window of one operation, from the record to the header, reports nothing
at any cut point. -/
theorem Settled.window_not_torn {w w' : World} {op : Op} (h : Settled w)
    (logs : (op.target w).isSome = true) (step : Step w op w') :
    ∃ before r after, r.Typed ∧ r.seq = w.catfs.nextSeq + 1 ∧
      w'.issued = w.issued ++ physTrace w.at_ w.sector
        (before ++ .record w.catfs.ringSlot r :: (after ++ [.header w'.catfs.jh])) ∧
      ∀ k c, before.length < k → k ≤ before.length + 1 + after.length →
        ∃ v, w.mountCut (physTrace w.at_ w.sector
          (before ++ .record w.catfs.ringSlot r :: (after ++ [.header w'.catfs.jh]))) k c = (v, 0) ∧
          journalCheckTorn v = 0 := by
  obtain ⟨i, target⟩ := Option.isSome_iff_exists.mp logs
  cases step_cases h.sound.ready h.sound.owned step with
  | same refused => rw [refused] at target; cases target
  | touched _ _ reads => rw [reads] at target; cases target
  | synced sync => rw [sync] at target; cases target
  | stranded strands _ _ _ => rw [strands.target] at target; cases target
  | @journaled j _ n _ _ _ _ change _ _ _ =>
    obtain ⟨taken, r, shrunk, tail, trace⟩ := change.trace
    have list : taken ++ .record w.catfs.ringSlot r ::
        ((shrunk ++ .inode j n :: tail) ++ [.header w'.catfs.jh]) =
        journalEvents w w' taken r shrunk j n tail := by
      simp [journalEvents]
    refine ⟨taken, r, shrunk ++ .inode j n :: tail, trace.typed, trace.seq, ?_, fun k c _ hk => ?_⟩
    · rw [list]
      exact congrArg World.issued trace.trace
    · rw [list]
      refine trace.mount_cut h (change.ready h.sound.ready) ?_ c
      simp only [journalEvents, List.length_append, List.length_cons, List.length_nil] at hk ⊢
      omega

/-- **Torn records are never reported.** On every reachable disk a mount finds no
torn record, and that stays so at every cut point between the record of an
operation and its header: the window in which there is one. -/
theorem torn_never_reported {w : World} (reached : Reachable w) :
    (∀ c, ∃ v, catfsMountAt { w with catfs := c } w.catfs.diskDrive w.catfs.partitionOffset =
      (v, 0) ∧ journalCheckTorn v = 0) ∧
    ∀ op w', (op.target w).isSome = true → Step w op w' →
      ∃ before r after, r.Typed ∧ r.seq = w.catfs.nextSeq + 1 ∧
        w'.issued = w.issued ++ physTrace w.at_ w.sector
          (before ++ .record w.catfs.ringSlot r :: (after ++ [.header w'.catfs.jh])) ∧
        ∀ k c, before.length < k → k ≤ before.length + 1 + after.length →
          ∃ v, w.mountCut (physTrace w.at_ w.sector
            (before ++ .record w.catfs.ringSlot r :: (after ++ [.header w'.catfs.jh]))) k c =
              (v, 0) ∧ journalCheckTorn v = 0 :=
  ⟨reached.settled.mount_not_torn, fun _ _ logs step => reached.settled.window_not_torn logs step⟩

theorem torn_never_reported_fresh : ∃ v, catfsMountAt freshWorld 0 2048 = (v, 0) ∧
    journalCheckTorn v = 0 :=
  (torn_never_reported (.format freshWorld_formatted)).1 freshWorld.catfs

/-- Power fails right after `catfs_chmod` has logged its record on a fresh volume:
the next mount sees nothing torn. -/
theorem chmod_cut_not_torn : ∃ before r after v,
    (catfsChmod freshWorld 0 0x1C0 7).1.issued = freshWorld.issued ++
      physTrace freshWorld.at_ freshWorld.sector (before ++ .record freshWorld.catfs.ringSlot r ::
        (after ++ [.header (catfsChmod freshWorld 0 0x1C0 7).1.catfs.jh])) ∧
    r.type ≠ jNone ∧
    freshWorld.mountCut (physTrace freshWorld.at_ freshWorld.sector
      (before ++ .record freshWorld.catfs.ringSlot r ::
        (after ++ [.header (catfsChmod freshWorld 0 0x1C0 7).1.catfs.jh]))) (before.length + 1)
      freshWorld.catfs = (v, 0) ∧ journalCheckTorn v = 0 := by
  have logs : ((Op.chmod 0 0x1C0 7).target freshWorld).isSome = true := by decide
  obtain ⟨before, r, after, typed, -, issued, cuts⟩ :=
    @Settled.window_not_torn _ (catfsChmod freshWorld 0 0x1C0 7).1 _ freshWorld_formatted.settled logs
      ⟨(catfsChmod freshWorld 0 0x1C0 7).2, rfl⟩
  obtain ⟨v, mount, none⟩ := cuts (before.length + 1) freshWorld.catfs (by omega) (by omega)
  refine ⟨before, r, after, v, issued, ?_, mount, none⟩
  rcases typed with ht | ht | ht <;> rw [ht] <;> decide

/-! ### Block marks -/

/-- Every block reachable from a live inode is marked in the bitmap. -/
def AllMarked (w : World) : Prop :=
  ∀ i p, (w.catfs.inodes i).type ≠ typeFree → w.slots (i, p) ≠ 0 →
    bmTest w.catfs.bitmap (w.slots (i, p)).toNat = true

/-- Every block number in the image is marked in its bitmap. -/
def ImageMarked (σ : Store) : Prop :=
  ∀ k, slots (imgInodes σ) (blockOf σ) k ≠ 0 →
    bmTest (imgBitmap σ) (slots (imgInodes σ) (blockOf σ) k).toNat = true

/-- Mounting a marked image with a good superblock. -/
theorem mount_allMarked {w : World} {drive : Int} {off : UInt32} {σ : Store}
    (reliable : Reliable w.drives drive) (hσ : (w.onVolume drive off).sector = σ)
    (mountable : Mountable (imgSuper σ)) (marked : ImageMarked σ) :
    ∃ v, catfsMountAt w drive off = (v, 0) ∧ AllMarked v := by
  obtain ⟨v, mount, state, -, -, sectors⟩ := catfsMountAt_state reliable hσ mountable.magic
    mountable.tableStart mountable.bitmapStart
  have blocks : blockOf v.sector = blockOf σ :=
    funext fun b => sectors _ (by rw [dataLba_eq]; omega)
  refine ⟨v, mount, fun i p _ => ?_⟩
  unfold World.slots
  rw [state, blocks]
  exact marked (i, p)

/-- If every bitmap sector written is from `bm`, each byte is the old one or
that of `bm`. -/
theorem imgBitmap_or {σ : Store} {es : List Ev} {bm : Bitmap}
    (h : ∀ e ∈ es, 96 ≤ e.lba → e.lba < 100 → ∃ s, e = .bitmap s bm) (k : Fin 2048) :
    imgBitmap (runEvents σ es) k = imgBitmap σ k ∨ imgBitmap (runEvents σ es) k = bm k := by
  induction es generalizing σ with
  | nil => exact Or.inl rfl
  | cons e es ih =>
    rw [runEvents_cons]
    rcases @ih (e.apply σ) fun f hf => h f (List.mem_cons_of_mem _ hf) with same | new
    · by_cases he : 96 ≤ e.lba ∧ e.lba < 100
      · obtain ⟨s, rfl⟩ := h e List.mem_cons_self he.1 he.2
        rw [same, imgBitmap_bitmap]
        split
        · exact Or.inr rfl
        · exact Or.inl rfl
      · refine Or.inl ?_
        rw [same]
        refine congrFun (imgBitmap_congr fun m lo hi => apply_of_ne ?_) k
        omega
    · exact Or.inr new

theorem bmTest_or {bm bm' old : Bitmap} (h : ∀ k, bm k = old k ∨ bm k = bm' k) {b : Nat}
    (inOld : bmTest old b = true) (inNew : bmTest bm' b = true) : bmTest bm b = true := by
  have small : b / 8 < 2048 := by
    have := bmTest_lt inOld
    omega
  unfold bmTest at inOld inNew ⊢
  rw [dif_pos small] at inOld inNew ⊢
  rcases h ⟨b / 8, small⟩ with same | same
  · rw [same]
    exact inOld
  · rw [same]
    exact inNew

/-- Operations that keep the marks right at every cut point: they take no block,
and their record does not put a block number into the root inode. -/
def CrashSafe (w : World) (op : Op) : Prop :=
  ¬op.Allocates w ∧ ((op.target w).isSome = true →
    w.catfs.ringSlot.val ≠ 203 ∨ (w.catfs.nextSeq + 1).toNat < 16777216)

theorem Tail.bitmap_only {c c' : State} {tail : List Ev} (h : Tail c c' tail) :
    ∀ e ∈ tail, 96 ≤ e.lba → ∃ s, e = .bitmap s c'.bitmap := by
  have inBitmap : ∀ e ∈ bitmapEvents c'.bitmap, ∃ s, e = .bitmap s c'.bitmap := by
    intro e he
    obtain ⟨s, -, rfl⟩ := List.mem_map.mp he
    exact ⟨s, rfl⟩
  have notSuper : ∀ {e : Ev}, 96 ≤ e.lba → e ≠ .super c'.sb := by
    rintro e he rfl
    simp [Ev.lba] at he
  intro e he h96
  cases h with
  | super _ => exact absurd (List.mem_singleton.mp he) (notSuper h96)
  | superBitmap => exact inBitmap e ((List.mem_cons.mp he).resolve_left (notSuper h96))
  | bitmapSuper =>
    rcases List.mem_append.mp he with he | he
    · exact inBitmap e he
    · exact absurd (List.mem_singleton.mp he) (notSuper h96)

namespace JournalTrace

variable {i : Fin 256} {D : Pos → Prop} {n : Inode} {w w₁ w₂ w' : World}
  {taken shrunk tail : List Ev} {r : JournalRec}

section Quiet

variable (h : JournalTrace i n w w₁ w₂ w' taken r shrunk tail) (settled : Settled w)
  (quiet : ¬Grew w w₁)

include h settled quiet

/-- Without an allocation the pointer blocks are not written before the record. -/
theorem taken_keeps (k : Nat) {l : Key} (pointer : l.2.isPtr = true) (present : w.slots l ≠ 0) :
    blockOf (runEvents w.sector (taken.take k)) (w.slots l) = blockOf w.sector (w.slots l) := by
  refine blockOf_runEvents_of_ne _ fun e he same => ?_
  obtain ⟨b, sec, rfl, grew | ⟨q, data, -, number⟩⟩ := h.taken_block e (List.mem_of_mem_take he)
  · exact quiet grew
  · have hb : b.val = (w.slots l).toNat := by simpa [Ev.lba] using same
    have eq : w.slots (i, q) = w.slots l := UInt32.toNat_inj.mp (number.trans hb)
    obtain rfl : (i, q) = l := by
      by_contra ne
      exact settled.sound.owned.alone present ne eq
    rw [data] at pointer
    cases pointer

end Quiet

/-- Without an allocation the places keep their blocks or lose them. -/
theorem slots_or (change : Journaled i D n w w₁ w₂ w') (owned : w.Owned) (quiet : ¬Grew w w₁)
    (l : Key) : w'.slots l = w.slots l ∨ w'.slots l = 0 := by
  have grown : w₁.slots = w.slots := by
    funext k
    rcases change.grows.places k with same | ⟨-, -, before, after⟩
    · exact same
    · exact absurd ⟨_, before, after⟩ quiet
  obtain ⟨r, -, -, drops⟩ := change.record
  have logged := (owned_logging (change.grows.owned owned) w.catfs.ringSlot r).2
  obtain ⟨j, p⟩ := l
  rw [(change.owned owned).2, ← grown, ← logged]
  by_cases hj : j = i
  · subst hj
    exact drops.slots_or p
  · exact Or.inl (drops.others j hj p)

/-- The metadata before the last phase. -/
theorem metadata₂ (h : JournalTrace i n w w₁ w₂ w' taken r shrunk tail) {m : Nat} (hm : m < 100) :
    w₂.sector m = Ev.apply w.sector (.record w.catfs.ringSlot r) m := by
  have low : ∀ es : List Ev, (∀ e ∈ es, 100 ≤ e.lba) → ∀ σ m, m < 100 → runEvents σ es m = σ m :=
    fun es hes σ m hm => runEvents_of_forall_ne fun e he => by have := hes e he; omega
  rw [h.sector₂, low shrunk h.shrunk_lba _ m hm, h.sector₁]
  exact record_congr (low taken h.taken_isBlock w.sector) _ r hm

/-- The record leaves the block fields of every inode alone. -/
theorem record_blocks (h : JournalTrace i n w w₁ w₂ w' taken r shrunk tail) (settled : Settled w)
    (synced : Synced w)
    (tame : w.catfs.ringSlot.val ≠ 203 ∨ (w.catfs.nextSeq + 1).toNat < 16777216) (j : Fin 256) :
    SameBlocks (w.catfs.inodes j) (imgInodes (Ev.apply w.sector (.record w.catfs.ringSlot r)) j) := by
  have onDisk : ∀ j, SameBlocks (w.catfs.inodes j) (imgInodes w.sector j) :=
    fun j => sameBlocks_of_timeless (synced.inodes j)
  refine (onDisk j).trans (imgInodes_record_blocks _ r j (tame.imp_right fun small => ?_))
  refine ⟨by rw [h.seq]; exact small, ?_⟩
  rw [(onDisk 0).blocks]
  exact settled.rootEmpty (.direct 0)

/-- A cut before the inode is written: the places hold what they held, or
nothing. -/
theorem cut_before (h : JournalTrace i n w w₁ w₂ w' taken r shrunk tail)
    (settled : Settled w) (synced : Synced w) (quiet : ¬Grew w w₁)
    (tame : w.catfs.ringSlot.val ≠ 203 ∨ (w.catfs.nextSeq + 1).toNat < 16777216) (k : Nat) :
    ImageMarked (runEvents w.sector ((taken ++ .record w.catfs.ringSlot r :: shrunk).take k)) := by
  have high : ∀ es : List Ev, (∀ e ∈ es, 100 ≤ e.lba) → ∀ σ m, m < 100 → runEvents σ es m = σ m :=
    fun es hes σ m hm => runEvents_of_forall_ne fun e he => by have := hes e he; omega
  have shrink : ∀ σ : Store, (∀ j, SameBlocks (w.catfs.inodes j) (imgInodes σ j)) →
      imgBitmap σ = w.catfs.bitmap →
      (∀ l : Key, l.2.isPtr = true → w.slots l ≠ 0 → ∀ j : Fin 128,
        ptr (blockOf σ (w.slots l)) j = ptr (blockOf w.sector (w.slots l)) j ∨
        ptr (blockOf σ (w.slots l)) j = 0) → ImageMarked σ := by
    intro σ inodes bits entries l present
    have old : w.slots l = slots w.catfs.inodes (blockOf w.sector) l := rfl
    rcases slots_shrunk inodes entries l with same | gone
    · rw [bits, same]
      exact settled.sound.owned.ledger.marked_of l
    · exact absurd gone present
  rw [List.take_append]
  by_cases hk : k ≤ taken.length
  · rw [Nat.sub_eq_zero_of_le hk, List.take_zero, List.append_nil]
    have metadata := high (taken.take k) (fun e he => h.taken_isBlock e (List.mem_of_mem_take he))
      w.sector
    refine shrink _ (fun j => ?_) ?_ fun l hl present j => Or.inl ?_
    · rw [imgInodes_congr fun m _ hm => metadata m (by omega)]
      exact sameBlocks_of_timeless (synced.inodes j)
    · rw [imgBitmap_congr fun m _ hm => metadata m hm, synced.bitmap]
    · rw [h.taken_keeps settled quiet k hl present]
  · obtain ⟨m, hm⟩ : ∃ m, k - taken.length = m + 1 := ⟨k - taken.length - 1, by omega⟩
    rw [List.take_of_length_le (by omega), hm, List.take_succ_cons, runEvents_append,
      runEvents_cons, ← h.sector₁]
    have before : ∀ m, m < 100 → w₁.sector m = w.sector m := by
      rw [h.sector₁]
      exact high taken h.taken_isBlock w.sector
    have metadata := high (shrunk.take m) (fun e he => h.shrunk_lba e (List.mem_of_mem_take he))
      (Ev.apply w₁.sector (.record w.catfs.ringSlot r))
    have onLog : (Ev.record w.catfs.ringSlot r).lba < 96 := by
      simp only [Ev.lba, recsPerSector_eq]
      show 2 + _ < 96
      omega
    refine shrink _ (fun j => ?_) ?_ fun l hl present j => ?_
    · rw [imgInodes_congr fun m _ hm => metadata m (by omega),
        imgInodes_congr fun m _ hm => record_congr before _ r (by omega)]
      exact h.record_blocks settled synced tame j
    · rw [imgBitmap_congr fun m _ hm => metadata m hm,
        imgBitmap_congr fun m lo hm => apply_of_ne (by omega),
        imgBitmap_congr fun m _ hm => before m hm, synced.bitmap]
    · have keeps := h.taken_keeps settled quiet taken.length hl present
      rw [List.take_length, ← h.sector₁] at keeps
      have step := (h.shrinks.take m).ptr_or (w.slots l) j
      rw [blockOf_apply_of_lt _ (by omega), keeps] at step
      exact step

/-- A cut after the inode is written: the places are the new ones, marked before
and after. -/
theorem cut_after (h : JournalTrace i n w w₁ w₂ w' taken r shrunk tail)
    (change : Journaled i D n w w₁ w₂ w') (settled : Settled w) (synced : Synced w)
    (quiet : ¬Grew w w₁)
    (tame : w.catfs.ringSlot.val ≠ 203 ∨ (w.catfs.nextSeq + 1).toNat < 16777216) (k : Nat) :
    ImageMarked (runEvents (Ev.apply w₂.sector (.inode i n))
      ((tail ++ [Ev.header w'.catfs.jh]).take k)) := by
  have onInode : 10 ≤ (Ev.inode i n).lba ∧ (Ev.inode i n).lba < 96 := by
    simp only [Ev.lba, inodeTableLba_eq, inodesPerSector_eq]
    omega
  have onLog : (Ev.record w.catfs.ringSlot r).lba < 96 := by
    simp only [Ev.lba, recsPerSector_eq]
    show 2 + _ < 96
    omega
  have rest : ∀ e ∈ (tail ++ [Ev.header w'.catfs.jh]).take k,
      (e.lba < 10 ∨ 96 ≤ e.lba) ∧ e.lba < 100 ∧ (96 ≤ e.lba → ∃ s, e = .bitmap s w'.catfs.bitmap) := by
    intro e he
    rcases List.mem_append.mp (List.mem_of_mem_take he) with he | he
    · have := h.shape.lba e he
      exact ⟨by omega, Ev.lba_lt_of_not_block (h.shape.not_block e he), h.shape.bitmap_only e he⟩
    · have onHeader : e.lba = 1 := by
        rw [List.mem_singleton.mp he]
        rfl
      exact ⟨by omega, by omega, fun h96 => by omega⟩
  generalize (tail ++ [Ev.header w'.catfs.jh]).take k = es at rest ⊢
  have inodes : ∀ j, SameBlocks (w'.catfs.inodes j)
      (imgInodes (runEvents (Ev.apply w₂.sector (.inode i n)) es) j) := by
    intro j
    rw [imgInodes_runEvents fun e he => (rest e he).1, imgInodes_inode, change.inodes_eq]
    by_cases hj : j = i
    · rw [if_pos hj, if_pos hj]
      exact ⟨rfl, rfl, rfl⟩
    · rw [if_neg hj, if_neg hj, imgInodes_congr fun m _ hm => h.metadata₂ (by omega)]
      exact h.record_blocks settled synced tame j
  have blocks : blockOf (runEvents (Ev.apply w₂.sector (.inode i n)) es) = blockOf w'.sector := by
    rw [blockOf_runEvents_of_lt _ fun e he => (rest e he).2.1,
      blockOf_apply_of_lt _ (by omega), change.blockOf_eq]
  have places : slots (imgInodes (runEvents (Ev.apply w₂.sector (.inode i n)) es))
      (blockOf (runEvents (Ev.apply w₂.sector (.inode i n)) es)) = w'.slots :=
    slots_congr inodes fun l _ _ => by rw [blocks]
  have bits : imgBitmap (Ev.apply w₂.sector (.inode i n)) = w.catfs.bitmap := by
    rw [imgBitmap_congr fun m lo _ => apply_of_ne (by omega),
      imgBitmap_congr fun m _ hm => h.metadata₂ hm,
      imgBitmap_congr fun m lo _ => apply_of_ne (by omega), synced.bitmap]
  intro l present
  rw [places] at present ⊢
  have inOld : bmTest w.catfs.bitmap (w'.slots l).toNat = true := by
    rcases slots_or change settled.sound.owned quiet l with same | gone
    · rw [same]
      exact settled.sound.owned.ledger.marked_of l
    · exact absurd gone present
  have inNew : bmTest w'.catfs.bitmap (w'.slots l).toNat = true :=
    (change.owned settled.sound.owned).1.ledger.marked_of l
  refine bmTest_or (fun k => ?_) inOld inNew
  rw [← bits]
  exact imgBitmap_or (fun e he h96 _ => (rest e he).2.2 h96) k

/-- Every cut point of a journaled change that takes no block. -/
theorem cut_marked (h : JournalTrace i n w w₁ w₂ w' taken r shrunk tail)
    (change : Journaled i D n w w₁ w₂ w') (settled : Settled w) (synced : Synced w)
    (quiet : ¬Grew w w₁)
    (tame : w.catfs.ringSlot.val ≠ 203 ∨ (w.catfs.nextSeq + 1).toNat < 16777216) (k : Nat) :
    ImageMarked (runEvents w.sector ((journalEvents w w' taken r shrunk i n tail).take k)) := by
  have split : journalEvents w w' taken r shrunk i n tail =
      (taken ++ .record w.catfs.ringSlot r :: shrunk) ++
        .inode i n :: (tail ++ [.header w'.catfs.jh]) := by simp [journalEvents]
  rw [split, List.take_append]
  generalize hlen : (taken ++ Ev.record w.catfs.ringSlot r :: shrunk).length = len
  by_cases hk : k ≤ len
  · rw [Nat.sub_eq_zero_of_le hk, List.take_zero, List.append_nil]
    exact h.cut_before settled synced quiet tame k
  · obtain ⟨m, hm⟩ : ∃ m, k - len = m + 1 := ⟨k - len - 1, by omega⟩
    rw [List.take_of_length_le (by omega), hm, List.take_succ_cons, runEvents_append,
      runEvents_append, runEvents_cons, runEvents_cons, ← h.sector₁, ← h.sector₂]
    exact h.cut_after change settled synced quiet tame m

/-- An allocation fills a place of the inode with a block that was unmarked. -/
theorem grew_slot (change : Journaled i D n w w₁ w₂ w') (owned : w.Owned)
    (keeps : ∀ p, ¬D p) (grew : Grew w w₁) :
    ∃ p, w'.slots (i, p) ≠ 0 ∧ bmTest w.catfs.bitmap (w'.slots (i, p)).toNat = false := by
  obtain ⟨a, before, after⟩ := grew
  have back : (UInt32.ofNat a).toNat = a := by
    have := bmTest_lt after
    rw [UInt32.toNat_ofNat']
    omega
  have fresh : bmTest w.catfs.bitmap (UInt32.ofNat a).toNat = false := by rw [back]; exact before
  have nonzero := owned.fresh_ne_zero fresh
  have owned₁ := change.grows.owned owned
  obtain ⟨⟨j, p⟩, held⟩ := owned₁.ledger.owned (v := UInt32.ofNat a)
    (by rw [back]; exact after) nonzero
  have held' : w₁.slots (j, p) = UInt32.ofNat a := held
  obtain ⟨r, -, -, drops⟩ := change.record
  have logged := (owned_logging owned₁ w.catfs.ringSlot r).2
  rcases change.grows.places (j, p) with same | ⟨hj, -, -, -⟩
  · exact absurd (same.symm.trans held') (owned.fresh_ne fresh (j, p))
  · obtain rfl : j = i := hj
    have final : w'.slots (j, p) = UInt32.ofNat a := by
      rw [(change.owned owned).2, drops.kept p (keeps p), logged, held']
    exact ⟨p, by rw [final]; exact nonzero, by rw [final]; exact fresh⟩

/-- A change that takes a block: with the inode on the disk and the bitmap not
yet, the new block is reachable and unmarked. -/
theorem cut_unmarked (h : JournalTrace i n w w₁ w₂ w' taken r shrunk tail)
    (change : Journaled i D n w w₁ w₂ w') (settled : Settled w) (synced : Synced w)
    (keeps : ∀ p, ¬D p) (live : n.type ≠ typeFree) (grew : Grew w w₁) (c : State) :
    ∃ v, w.mountCut (physTrace w.at_ w.sector (journalEvents w w' taken r shrunk i n tail))
      (taken.length + shrunk.length + 2) c = (v, 0) ∧ ¬AllMarked v := by
  have mountable := h.cut_mountable settled (change.ready settled.sound.ready)
    (taken.length + shrunk.length + 2)
  obtain ⟨v, mount, state, -, -, sectors⟩ := catfsMountAt_state (w := w.cut _ _ c)
    settled.sound.ready.reliable (crash_sector w _ _ c) mountable.magic mountable.tableStart
    mountable.bitmapStart
  refine ⟨v, mount, fun marked => ?_⟩
  have store : runEvents w.sector ((journalEvents w w' taken r shrunk i n tail).take
      (taken.length + shrunk.length + 2)) = Ev.apply w₂.sector (.inode i n) := by
    have split : journalEvents w w' taken r shrunk i n tail =
        (taken ++ .record w.catfs.ringSlot r :: (shrunk ++ [.inode i n])) ++
          (tail ++ [.header w'.catfs.jh]) := by simp [journalEvents]
    rw [split, List.take_left' (by simp; omega), runEvents_append, runEvents_cons,
      runEvents_append, ← h.sector₁, ← h.sector₂]
    rfl
  rw [store] at state sectors
  have onInode : 10 ≤ (Ev.inode i n).lba ∧ (Ev.inode i n).lba < 96 := by
    simp only [Ev.lba, inodeTableLba_eq, inodesPerSector_eq]
    omega
  have onLog : (Ev.record w.catfs.ringSlot r).lba < 96 := by
    simp only [Ev.lba, recsPerSector_eq]
    show 2 + _ < 96
    omega
  have bits : v.catfs.bitmap = w.catfs.bitmap := by
    rw [state]
    show imgBitmap _ = _
    rw [imgBitmap_congr fun m lo _ => apply_of_ne (by omega),
      imgBitmap_congr fun m _ hm => h.metadata₂ hm,
      imgBitmap_congr fun m lo _ => apply_of_ne (by omega), synced.bitmap]
  have inode : v.catfs.inodes i = n := by
    rw [state]
    show imgInodes _ i = n
    rw [imgInodes_inode, if_pos rfl]
  have blocks : blockOf v.sector = blockOf w'.sector := by
    have same : blockOf v.sector = blockOf (Ev.apply w₂.sector (.inode i n)) :=
      funext fun b => sectors _ (by rw [dataLba_eq]; omega)
    rw [same, blockOf_apply_of_lt _ (by omega), change.blockOf_eq]
  have places : ∀ p, v.slots (i, p) = w'.slots (i, p) := by
    intro p
    show (v.catfs.inodes i).slot (blockOf v.sector) p =
      (w'.catfs.inodes i).slot (blockOf w'.sector) p
    rw [inode, blocks, change.inodes_eq, if_pos rfl]
  obtain ⟨p, held, unmarked⟩ := grew_slot change settled.sound.owned keeps grew
  have present : w'.slots (i, p) ≠ 0 := held
  rw [← places] at present unmarked
  have := marked i p (by rw [inode]; exact live) present
  rw [bits, unmarked] at this
  cases this

end JournalTrace

/-- A disk in agreement is marked. -/
theorem Synced.imageMarked {w : World} (synced : Synced w) (owned : w.Owned) :
    ImageMarked w.sector := by
  have places : slots (imgInodes w.sector) (blockOf w.sector) = w.slots :=
    slots_congr (fun j => sameBlocks_of_timeless (synced.inodes j)) fun _ _ _ => rfl
  intro l _
  rw [places, synced.bitmap]
  exact owned.ledger.marked_of l

/-- With all marks in place, the next allocation hands out a block that no live
inode has. -/
theorem AllMarked.next_fresh {w : World} (h : AllMarked w) {c : State} {nb : UInt32}
    (alloc : bmAlloc w.catfs = (c, some nb)) (i : Fin 256) (p : Pos)
    (live : (w.catfs.inodes i).type ≠ typeFree) (present : w.slots (i, p) ≠ 0) :
    w.slots (i, p) ≠ nb := by
  intro same
  have clear := (bmAlloc_some alloc).2.1
  have marked := h i p live present
  rw [same, clear] at marked
  cases marked

/-- The writes of a completed operation of a reachable, consistent volume: at
every cut point of a safe operation the next mount finds all marks in place, and
every journaled write that takes a block has a cut point where it does not. -/
theorem Settled.crash {w w' : World} {op : Op} (settled : Settled w) (synced : Synced w)
    (metadata : op ≠ .sync) (step : Step w op w') :
    ∃ writes, w'.issued = w.issued ++ writes ∧
      (CrashSafe w op → ∀ k c, ∃ v, w.mountCut writes k c = (v, 0) ∧ AllMarked v) ∧
      (op.Allocates w → (op.target w).isSome = true → ∃ k, ∀ c, ∃ v,
        w.mountCut writes k c = (v, 0) ∧ ¬AllMarked v) := by
  have still : ∀ k c, ∃ v, w.mountCut [] k c = (v, 0) ∧ AllMarked v := by
    intro k c
    exact mount_allMarked (w := w.cut (physTrace w.at_ w.sector []) k c)
      settled.sound.ready.reliable (crash_sector w [] k c) (by simpa using settled.mountable)
      (by simpa using synced.imageMarked settled.sound.owned)
  have idle : ∀ {P : Prop}, op.target w = none → (op.target w).isSome = true → P := by
    intro P none logs
    rw [none] at logs
    cases logs
  cases step_cases settled.sound.ready settled.sound.owned step with
  | same refused => exact ⟨[], by simp, fun _ => still, fun _ => idle refused⟩
  | touched _ _ reads =>
    exact ⟨[], by simp [World.mapInode, World.mapCatfs], fun _ => still, fun _ => idle reads⟩
  | synced sync => exact absurd sync metadata
  | stranded strands _ grows _ =>
    obtain ⟨es, performed, -⟩ := grows.performed
    exact ⟨_, congrArg World.issued performed, fun safe => absurd strands.allocates safe.1,
      fun _ => idle strands.target⟩
  | journaled target change grew took _ =>
    obtain ⟨taken, r, shrunk, tail, trace⟩ := change.trace
    refine ⟨_, congrArg World.issued trace.trace, fun safe k c => ?_, fun allocates _ => ?_⟩
    · exact mount_allMarked (w := w.cut (physTrace w.at_ w.sector _) k c)
        settled.sound.ready.reliable (crash_sector w _ k c)
        (trace.cut_mountable settled (change.ready settled.sound.ready) k)
        (trace.cut_marked change settled synced (mt grew.mpr safe.1)
          (safe.2 (by rw [target]; rfl)) k)
    · have took' := took (grew.mp allocates)
      exact ⟨_, trace.cut_unmarked change settled synced took'.1 took'.2 (grew.mp allocates)⟩

end AtmKoala.Catfs
