import AtmKoala.Catfs.Agree

/-!
The life of a volume: formatted once, used through completed operations, and
mounted again from disks in agreement with memory.

`Settled` collects what holds in every state so reached (`Reachable.settled`):
the bookkeeping is sound, the root is a directory without blocks, the disk has a
CatFS superblock, and the journal header on the disk is the one in memory, with
its two counters equal. The last point is what `journal_check_torn` meets after
every mount.
-/

namespace AtmKoala.Catfs

open Lib

/-- The two counters of the journal header are equal, and equal to the next
sequence number. -/
def Even (c : State) : Prop := c.jh.head = c.jh.committedSeq ∧ c.nextSeq = c.jh.committedSeq

/-- What holds in every reachable state. -/
structure Settled (w : World) : Prop where
  sound : Sound w
  rootDir : (w.catfs.inodes 0).type = typeDir
  rootEmpty : ∀ p, w.slots (0, p) = 0
  mountable : Mountable (imgSuper w.sector)
  header : imgHeader w.sector = w.catfs.jh
  even : Even w.catfs

/-- Formatted, used, and mounted again from disks in agreement. -/
inductive Reachable : World → Prop where
  | format {w : World} (formatted : Formatted w) : Reachable w
  | step {w w' : World} {op : Op} (reached : Reachable w) (step : Step w op w') : Reachable w'
  | remount {w w' : World} (c : State) (reached : Reachable w) (synced : Synced w)
      (mount : catfsMountAt { w with catfs := c } w.catfs.diskDrive w.catfs.partitionOffset =
        (w', 0)) : Reachable w'

theorem Formatted.settled {w : World} (h : Formatted w) : Settled w := by
  have sound := h.sound
  have synced := h.synced
  obtain ⟨w₀, drive, off, label, now, -, state, rfl⟩ := h.eq
  have slots := formatState_slots drive off label now
  rw [← state] at slots
  refine ⟨sound, ?_, fun p => slots _ (0, p), ?_, synced.jh, ?_⟩
  · show (w₀.catfs.inodes 0).type = typeDir
    rw [state]
    rfl
  · rw [synced.sb]
    exact sound.ready.mountable
  · show Even w₀.catfs.synced
    rw [state]
    exact ⟨rfl, rfl⟩

/-- A journaled change keeps what holds. -/
theorem Journaled.settled {i : Fin 256} {D : Pos → Prop} {n : Inode} {w w₁ w₂ w' : World}
    (change : Journaled i D n w w₁ w₂ w') (h : Settled w)
    (root : i = 0 → n.type = typeDir ∧ w₁ = w) : Settled w' := by
  obtain ⟨r, -, -, drops⟩ := change.record
  obtain ⟨owned, slots⟩ := change.owned h.sound.owned
  have ready := change.ready h.sound.ready
  obtain ⟨super, header⟩ := change.super_header
  refine ⟨⟨ready, owned, change.counted h.sound.counted⟩, ?_, fun p => ?_, ?_, header, ?_⟩
  · rw [change.inodes_eq]
    by_cases hi : i = 0
    · rw [if_pos hi.symm]
      exact (root hi).1
    · rw [if_neg fun h0 => hi h0.symm]
      exact h.rootDir
  · have logged := (owned_logging (change.grows.owned h.sound.owned) w.catfs.ringSlot r).2
    rw [slots]
    by_cases hi : i = 0
    · obtain ⟨-, rfl⟩ := root hi
      subst hi
      rcases drops.slots_or p with same | gone
      · rw [same, logged]
        exact h.rootEmpty p
      · exact gone
    · have other : (0 : Fin 256) ≠ i := fun h0 => hi h0.symm
      rw [drops.others 0 other, logged, change.grows.others other]
      exact h.rootEmpty p
  · rw [super]
    exact ready.mountable
  · unfold Even
    rw [change.jh_eq, change.nextSeq_eq]
    refine ⟨?_, rfl⟩
    show w.catfs.jh.head + 1 = w.catfs.nextSeq + 1
    rw [h.even.1, h.even.2]

/-- **Step.** -/
theorem Settled.step {w w' : World} {op : Op} (h : Settled w) (step : Step w op w') :
    Settled w' := by
  have sound := h.sound.step step
  cases step_cases h.sound.ready h.sound.owned step with
  | same _ => exact h
  | touched i now _ =>
    refine ⟨sound, ?_, fun p => ?_, h.mountable, h.header, h.even⟩
    · by_cases hi : (0 : Fin 256) = i
      · subst hi
        simpa [World.mapInode, World.mapCatfs] using h.rootDir
      · simpa [World.mapInode, World.mapCatfs, hi] using h.rootDir
    · rw [(owned_touch h.sound.owned i now).2]
      exact h.rootEmpty p
  | synced _ =>
    have synced := synced_sync w
    refine ⟨sound, h.rootDir, fun p => ?_, ?_, synced.jh, h.even⟩
    · rw [(owned_sync h.sound.owned).2]
      exact h.rootEmpty p
    · rw [synced.sb]
      exact sound.ready.mountable
  | stranded _ file grows _ =>
    have other : ∀ {i : Fin 256}, Op.isFile w i = true → (0 : Fin 256) ≠ i := by
      rintro i file rfl
      exact not_isFile_root h.rootDir file
    refine ⟨sound, ?_, fun p => ?_, ?_, ?_, ?_⟩
    · rw [grows.only.others 0 (other file)]
      exact h.rootDir
    · rw [grows.others (other file)]
      exact h.rootEmpty p
    · rw [imgSuper_congr (grows.sector_eq (by decide))]
      exact h.mountable
    · rw [imgHeader_congr (grows.sector_eq (by decide)), grows.only.jh]
      exact h.header
    · unfold Even
      rw [grows.only.jh, grows.only.nextSeq]
      exact h.even
  | journaled _ change _ _ root => exact change.settled h (root h.rootDir)

/-- Mounting a disk in agreement. -/
theorem Settled.remount {w w' : World} {c : State} (h : Settled w) (synced : Synced w)
    (mount : catfsMountAt { w with catfs := c } w.catfs.diskDrive w.catfs.partitionOffset =
      (w', 0)) : Settled w' := by
  obtain ⟨v, mount', state, slots, sound, again, same⟩ := synced.mount h.sound c
  obtain rfl : v = w' := (Prod.mk.inj (mount'.symm.trans mount)).1
  refine ⟨sound, ?_, fun p => ?_, ?_, again.jh, ?_⟩
  · rw [type_of_timeless (same.inodes 0)]
    exact h.rootDir
  · rw [slots]
    exact h.rootEmpty p
  · rw [again.sb]
    exact sound.ready.mountable
  · have header : imgHeader w.sector = w.catfs.jh := h.header
    rw [state]
    refine ⟨?_, rfl⟩
    show (imgHeader w.sector).head = (imgHeader w.sector).committedSeq
    rw [header]
    exact h.even.1

/-- **Run.** -/
theorem Reachable.settled {w : World} (h : Reachable w) : Settled w := by
  induction h with
  | format formatted => exact formatted.settled
  | step _ step ih => exact ih.step step
  | remount c _ synced mount ih => exact ih.remount synced mount

end AtmKoala.Catfs
