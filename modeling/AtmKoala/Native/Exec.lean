import AtmKoala.Lib.Slots
import AtmKoala.Native.Accept

/-!
The side table of close-on-exec bits.

* `Recorded`: a task has one entry, and has it while it has a table of descriptors.
* `fdExecSet_spec`, `fdExecReset_spec`, `fdExecDrop_spec`: what the functions on the table
  do to the bits. No entry is ever missing, because there are more of them than tasks.
* `Quiet` is what the functions on pipes, sockets and files leave alone.
-/

namespace AtmKoala.Native

open Lib
open Sched (Slot)

variable {w w' w'' : World} {t : Slot} {k : Fd} {i : Fin 8} {e : PipeEnd} {v : Bool}

/-! ### Bits -/

/-- What the side table has for a task. -/
def execEntry (w : World) (t : Slot) : Option ExecMeta := entryOf ExecMeta.owner w.execMeta t

structure Recorded (w : World) : Prop where
  distinct : Distinct ExecMeta.owner w.execMeta
  ready : ∀ t, (w.tables t).ready = true → execEntry w t ≠ none

theorem fdExecGet_eq (w : World) (t : Slot) (k : Fd) :
    fdExecGet w t k = (execEntry w t).any (·.flags k) := by
  have search : fdExecMetaFor w t false = (w, slotOf ExecMeta.owner w.execMeta t) := by
    unfold fdExecMetaFor slotOf
    split
    · rename_i n found
      exact congrArg (w, ·) found.symm
    · rename_i none_
      exact congrArg (w, ·) none_.symm
  unfold fdExecGet execEntry entryOf
  rw [search]
  cases slotOf ExecMeta.owner w.execMeta t with
  | none => rfl
  | some n => rfl

theorem fdExecGet_congr (same : w'.execMeta = w.execMeta) (t : Slot) (k : Fd) :
    fdExecGet w' t k = fdExecGet w t k := by
  rw [fdExecGet_eq, fdExecGet_eq, execEntry, execEntry, same]

/-- The entry of a task as it is, or a new one. -/
theorem fdExecMetaFor_spec (distinct : Distinct ExecMeta.owner w.execMeta) (t : Slot) :
    ∃ f n m, fdExecMetaFor w t true = ({ w with execMeta := f }, some n) ∧ f n = some m ∧ m.owner = t ∧
      Distinct ExecMeta.owner f ∧ (∀ k, m.flags k = fdExecGet w t k) ∧
      ∀ u, u ≠ t → entryOf ExecMeta.owner f u = execEntry w u := by
  cases slot : slotOf ExecMeta.owner w.execMeta t with
  | some n =>
    obtain ⟨m, stored, owner⟩ := slotOf_some slot
    refine ⟨w.execMeta, n, m, ?_, stored, owner, distinct, fun k => ?_, fun _ _ => rfl⟩
    · unfold fdExecMetaFor
      unfold slotOf at slot
      rw [slot]
    · rw [fdExecGet_eq, execEntry, entryOf, slot, Option.bind_some, stored]
      rfl
  | none =>
    obtain ⟨n, free⟩ := distinct.room (by decide)
    obtain ⟨n, found⟩ : ∃ n, ((List.finRange 32).find? fun i => (w.execMeta i).isNone) = some n := by
      refine Option.isSome_iff_exists.mp (List.find?_isSome.mpr ⟨n, List.mem_finRange n, ?_⟩)
      rw [free]
      rfl
    have unused := List.find?_some found
    rw [Option.isNone_iff_eq_none] at unused
    obtain ⟨distinct', entries⟩ := distinct.put (a := ⟨t, fun _ => false⟩) (.inr ⟨slot, unused⟩)
    refine ⟨_, n, _, ?_, Function.update_self .., rfl, distinct', fun k => ?_, fun u ne => ?_⟩
    · unfold fdExecMetaFor
      unfold slotOf at slot
      rw [slot]
      dsimp only
      rw [found]
      rfl
    · rw [fdExecGet_eq, execEntry, entryOf_eq_none_iff.mpr slot]
      rfl
    · rw [entries, if_neg ne]
      rfl

theorem fdExecMetaFor_false (some_ : execEntry w t ≠ none) :
    ∃ n m, fdExecMetaFor w t false = (w, some n) ∧ w.execMeta n = some m ∧ m.owner = t := by
  cases slot : slotOf ExecMeta.owner w.execMeta t with
  | none => exact absurd (entryOf_eq_none_iff.mpr slot) some_
  | some n =>
    obtain ⟨m, stored, owner⟩ := slotOf_some slot
    refine ⟨n, m, ?_, stored, owner⟩
    unfold fdExecMetaFor
    unfold slotOf at slot
    rw [slot]

/-- **A bit is set.** -/
theorem fdExecSet_spec (distinct : Distinct ExecMeta.owner w.execMeta) (k : Fd)
    (able : execEntry w t ≠ none ∨ v = true) :
    ∃ f, fdExecSet w t k v = ({ w with execMeta := f }, true) ∧ Distinct ExecMeta.owner f ∧
      ∀ u, entryOf ExecMeta.owner f u =
        if u = t then some ⟨t, Function.update (fdExecGet w t) k v⟩ else execEntry w u := by
  -- the entry is there, or a new one is made
  have entry : ∃ f n m, fdExecMetaFor w t v = ({ w with execMeta := f }, some n) ∧ f n = some m ∧
      m.owner = t ∧ Distinct ExecMeta.owner f ∧ (∀ k, m.flags k = fdExecGet w t k) ∧
      ∀ u, u ≠ t → entryOf ExecMeta.owner f u = execEntry w u := by
    cases v with
    | true => exact fdExecMetaFor_spec distinct t
    | false =>
      rcases able with some_ | absurd_
      · obtain ⟨n, m, done, stored, owner⟩ := fdExecMetaFor_false some_
        refine ⟨w.execMeta, n, m, done, stored, owner, distinct, fun k => ?_, fun _ _ => rfl⟩
        rw [fdExecGet_eq, execEntry, (entryOf_eq_some_iff distinct).mpr ⟨n, stored, owner⟩]
        rfl
      · cases absurd_
  obtain ⟨f, n, m, done, stored, rfl, distinct', flags, others⟩ := entry
  have slot : slotOf ExecMeta.owner f m.owner = some n := distinct'.slot_eq stored
  obtain ⟨distinct'', entries⟩ := distinct'.put
    (a := ⟨m.owner, Function.update m.flags k v⟩) (.inl slot)
  refine ⟨_, ?_, distinct'', fun u => ?_⟩
  · unfold fdExecSet
    rw [done]
    dsimp only
    rw [stored]
    rfl
  · have same : m.flags = fdExecGet w m.owner := funext flags
    rw [entries, ← same]
    split
    · rfl
    · rename_i ne
      exact others u ne

theorem fdExecReset_spec (distinct : Distinct ExecMeta.owner w.execMeta) (t : Slot) :
    ∃ f, fdExecReset w t = { w with execMeta := f } ∧ Distinct ExecMeta.owner f ∧
      ∀ u, entryOf ExecMeta.owner f u = if u = t then some ⟨t, fun _ => false⟩ else execEntry w u := by
  obtain ⟨f, n, m, done, stored, rfl, distinct', -, others⟩ := fdExecMetaFor_spec distinct t
  have slot : slotOf ExecMeta.owner f m.owner = some n := distinct'.slot_eq stored
  obtain ⟨distinct'', entries⟩ := distinct'.put (a := ⟨m.owner, fun _ => false⟩) (.inl slot)
  refine ⟨_, ?_, distinct'', fun u => ?_⟩
  · unfold fdExecReset
    rw [done]
    rfl
  · rw [entries]
    split
    · rfl
    · rename_i ne
      exact others u ne

theorem fdExecDrop_spec (distinct : Distinct ExecMeta.owner w.execMeta) (t : Slot) :
    ∃ f, fdExecDrop w t = { w with execMeta := f } ∧ Distinct ExecMeta.owner f ∧
      ∀ u, entryOf ExecMeta.owner f u = if u = t then none else execEntry w u := by
  by_cases some_ : execEntry w t = none
  · refine ⟨w.execMeta, ?_, distinct, fun u => ?_⟩
    · have slot := entryOf_eq_none_iff.mp some_
      unfold slotOf at slot
      unfold fdExecDrop fdExecMetaFor
      rw [slot]
      rfl
    · split
      · rename_i same
        exact same ▸ some_
      · rfl
  · obtain ⟨n, m, done, stored, rfl⟩ := fdExecMetaFor_false some_
    obtain ⟨distinct', entries⟩ := distinct.remove stored
    refine ⟨_, ?_, distinct', fun u => entries u⟩
    unfold fdExecDrop
    rw [done]
    rfl

theorem fdExecGet_of_entries {f : Fin 32 → Option ExecMeta} (t : Slot) (k : Fd) :
    fdExecGet { w with execMeta := f } t k = (entryOf ExecMeta.owner f t).any (·.flags k) :=
  fdExecGet_eq _ t k

theorem Recorded.entries {f : Fin 32 → Option ExecMeta} (recorded : Recorded w)
    (distinct : Distinct ExecMeta.owner f)
    (kept : ∀ u, (w.tables u).ready = true → execEntry w u ≠ none → entryOf ExecMeta.owner f u ≠ none) :
    Recorded { w with execMeta := f } :=
  ⟨distinct, fun u ready => kept u ready (recorded.ready u ready)⟩

theorem Recorded.set (recorded : Recorded w) (k : Fd) (able : execEntry w t ≠ none ∨ v = true) :
    (fdExecSet w t k v).2 = true ∧ Recorded (fdExecSet w t k v).1 ∧
      ∀ u j, fdExecGet (fdExecSet w t k v).1 u j =
        if u = t ∧ j = k then v else fdExecGet w u j := by
  obtain ⟨f, done, distinct, entries⟩ := fdExecSet_spec recorded.distinct k able
  rw [done]
  refine ⟨rfl, recorded.entries distinct fun u _ some_ => ?_, fun u j => ?_⟩
  · rw [entries]
    split
    · nofun
    · exact some_
  · rw [fdExecGet_of_entries, entries]
    by_cases here : u = t
    · rw [if_pos here]
      show Function.update (fdExecGet w t) k v j = _
      rw [Function.update_apply, here]
      by_cases same : j = k
      · rw [if_pos same, if_pos ⟨rfl, same⟩]
      · rw [if_neg same, if_neg fun both => same both.2]
    · rw [if_neg here, if_neg fun both => here both.1, fdExecGet_eq]

theorem Recorded.reset (recorded : Recorded w) (t : Slot) :
    Recorded (fdExecReset w t) ∧ execEntry (fdExecReset w t) t ≠ none ∧
      ∀ u j, fdExecGet (fdExecReset w t) u j = if u = t then false else fdExecGet w u j := by
  obtain ⟨f, done, distinct, entries⟩ := fdExecReset_spec recorded.distinct t
  rw [done]
  refine ⟨recorded.entries distinct fun u _ some_ => ?_, ?_, fun u j => ?_⟩
  · rw [entries]
    split
    · nofun
    · exact some_
  · show entryOf ExecMeta.owner f t ≠ none
    rw [entries, if_pos rfl]
    nofun
  · rw [fdExecGet_of_entries, entries]
    split
    · rfl
    · rw [fdExecGet_eq]

/-- A task without a table needs no entry. -/
theorem Recorded.drop (recorded : Recorded w) (unready : (w.tables t).ready = false) :
    Recorded (fdExecDrop w t) ∧
      ∀ u j, fdExecGet (fdExecDrop w t) u j = if u = t then false else fdExecGet w u j := by
  obtain ⟨f, done, distinct, entries⟩ := fdExecDrop_spec recorded.distinct t
  rw [done]
  refine ⟨recorded.entries distinct fun u ready some_ => ?_, fun u j => ?_⟩
  · rw [entries]
    split
    · rename_i here
      rw [here, unready] at ready
      cases ready
    · exact some_
  · rw [fdExecGet_of_entries, entries]
    split
    · rfl
    · rw [fdExecGet_eq]

theorem Boot.recorded (boot : Boot w) (unused : ∀ i, w.execMeta i = none) : Recorded w := by
  refine ⟨fun i j a b first => ?_, fun t ready => ?_⟩
  · rw [unused] at first
    cases first
  · rw [boot.tables t] at ready
    cases ready

/-! ### What leaves the bits alone -/

structure Quiet (w w' : World) : Prop where
  execMeta : w'.execMeta = w.execMeta
  ready : ∀ t, (w'.tables t).ready = (w.tables t).ready

theorem Quiet.refl (w : World) : Quiet w w := ⟨rfl, fun _ => rfl⟩

theorem Quiet.trans (first : Quiet w w') (second : Quiet w' w'') : Quiet w w'' :=
  ⟨second.execMeta.trans first.execMeta, fun t => (second.ready t).trans (first.ready t)⟩

theorem Quiet.bit (quiet : Quiet w w') (t : Slot) (k : Fd) : fdExecGet w' t k = fdExecGet w t k :=
  fdExecGet_congr quiet.execMeta t k

theorem Recorded.quiet (recorded : Recorded w) (quiet : Quiet w w') : Recorded w' := by
  refine ⟨quiet.execMeta ▸ recorded.distinct, fun t ready => ?_⟩
  rw [execEntry, quiet.execMeta]
  exact recorded.ready t ((quiet.ready t).symm.trans ready)

theorem quiet_mapTable {f : Table → Table} (ready : ∀ table, (f table).ready = table.ready) :
    Quiet w (w.mapTable t f) := by
  refine ⟨rfl, fun u => ?_⟩
  by_cases here : u = t
  · rw [here, mapTable_self]
    exact ready _
  · rw [mapTable_of_ne f here]

theorem quiet_setFd (b : Option (Fin 64)) : Quiet w (w.setFd t k b) := quiet_mapTable fun _ => rfl

theorem quiet_setPipe (p : Option (Fin 8 × PipeEnd)) : Quiet w (w.setPipe t k p) :=
  quiet_mapTable fun _ => rfl

theorem quiet_setSocket (n : Option (Fin 16)) : Quiet w (w.setSocket t k n) :=
  quiet_mapTable fun _ => rfl

theorem quiet_setFlags (n : UInt32) : Quiet w (w.setFlags t k n) := quiet_mapTable fun _ => rfl

theorem quiet_sockets (f : Fin 16 → Option Slot) : Quiet w { w with sockets := f } :=
  ⟨rfl, fun _ => rfl⟩

theorem quiet_mapPipe (f : Pipe → Pipe) : Quiet w (w.mapPipe i f) := ⟨rfl, fun _ => rfl⟩

theorem quiet_atmPosixOpen (ok : Bool) : Quiet w (atmPosixOpen w ok).1 := by
  unfold atmPosixOpen
  split
  · exact .refl w
  · split
    · exact .refl w
    · exact ⟨rfl, fun _ => rfl⟩

theorem quiet_atmPosixDup (b : Fin 64) : Quiet w (atmPosixDup w b).1 := quiet_atmPosixOpen _

theorem quiet_wake (waiter : Option Slot) : Quiet w (wake w waiter) := by
  unfold wake
  split
  · exact .refl w
  · split
    · exact ⟨rfl, fun _ => rfl⟩
    · exact .refl w

theorem quiet_wakeOther : Quiet w (wakeOther w i e) := by
  cases e with
  | read => exact quiet_wake _
  | write => exact quiet_wake _

theorem quiet_nativePipeClose (fd : Int) : Quiet w (nativePipeClose w t fd).1 := by
  refine ⟨?_, nativePipeClose_ready fd⟩
  unfold nativePipeClose
  split
  · rfl
  · dsimp only
    unfold pipeMaybeFree
    split
    · exact quiet_wakeOther.execMeta
    · exact quiet_wakeOther.execMeta

theorem quiet_nativeSocketClose (fd : Int) : Quiet w (nativeSocketClose w t fd).1 := by
  unfold nativeSocketClose
  split
  · exact .refl w
  · split
    · exact .refl w
    · split
      · exact ⟨rfl, (quiet_setSocket none).ready⟩
      · exact .refl w

theorem quiet_nativePipeTaskCleanup : Quiet w (nativePipeTaskCleanup w t) := by
  unfold nativePipeTaskCleanup
  refine List.foldlRecOn _ _ (.refl w) fun w' quiet k _ => ?_
  split
  · exact quiet.trans (quiet_nativePipeClose _)
  · exact quiet

theorem quiet_nativeSocketTaskCleanup : Quiet w (nativeSocketTaskCleanup w t) := by
  unfold nativeSocketTaskCleanup
  refine List.foldlRecOn _ _ (.refl w) fun w' quiet k _ => ?_
  split
  · exact quiet.trans (quiet_nativeSocketClose _)
  · exact quiet

theorem quiet_nativePipeDup (oldfd : Int) (newfd : Fd) : Quiet w (nativePipeDup w t oldfd newfd).1 := by
  unfold nativePipeDup
  split
  · exact .refl w
  · split
    · exact .refl w
    · exact (quiet_mapPipe _).trans (quiet_setPipe _)

theorem quiet_nativePipeInherit (child parent : Slot) (k : Fd) :
    Quiet w (nativePipeInherit w child parent k).1 := by
  unfold nativePipeInherit
  split
  · exact .refl w
  · split
    · exact .refl w
    · exact (quiet_mapPipe _).trans (quiet_setPipe _)

theorem quiet_nativePipeCreate : Quiet w (nativePipeCreate w t).1 := by
  unfold nativePipeCreate
  split
  · exact .refl w
  · split
    · exact .refl w
    · split
      · exact .refl w
      · split
        · exact .refl w
        · exact ((quiet_mapPipe _).trans (quiet_setPipe _)).trans (quiet_setPipe _)

theorem quiet_nativeSocketOpen : Quiet w (nativeSocketOpen w t).1 := by
  unfold nativeSocketOpen
  split
  · exact .refl w
  · split
    · exact .refl w
    · split
      · exact .refl w
      · exact (quiet_sockets _).trans (quiet_setSocket _)

theorem quiet_nativeSocketAccept (fd : Int) (listening established : Bool) :
    Quiet w (nativeSocketAccept w t fd listening established).1 := by
  have put : ∀ (k : Fd) (n : Fin 16),
      Quiet w ({ w with sockets := Function.update w.sockets n (some t) }.setSocket t k (some n)) :=
    fun k n => (quiet_sockets _).trans (quiet_setSocket _)
  unfold nativeSocketAccept
  split
  · exact .refl w
  · split
    · exact .refl w
    · split
      · exact .refl w
      · dsimp only
        split
        · exact put _ _
        · exact ((put _ _).trans (quiet_setSocket none)).trans ⟨rfl, fun _ => rfl⟩

theorem quiet_nativeDirOpen (ok : Bool) : Quiet w (nativeDirOpen w t ok) := by
  refine ⟨?_, (level_nativeDirOpen ok).ready⟩
  unfold nativeDirOpen
  split
  · rfl
  · split
    · rfl
    · split
      · rfl
      · rfl

theorem quiet_closeTarget (k : Fd) : Quiet w (closeTarget w t k) := by
  unfold closeTarget
  split
  · exact quiet_nativePipeClose _
  · split
    · exact quiet_nativeSocketClose _
    · split
      · exact .refl w
      · exact ⟨rfl, fun _ => rfl⟩

theorem quiet_resumeRead {count : Nat} {nonblock : Bool} {r : Option (Int × List UInt8)}
    (done : resumeRead w t i count nonblock = some (w', r)) : Quiet w w' := by
  obtain ⟨s, p, rfl⟩ := resumeRead_changes done
  exact ⟨rfl, fun _ => rfl⟩

theorem quiet_resumeWrite {data : List UInt8} {nonblock : Bool} {r : Option Int}
    (done : resumeWrite w t i data nonblock = some (w', r)) : Quiet w w' := by
  obtain ⟨s, p, rfl⟩ := resumeWrite_changes done
  exact ⟨rfl, fun _ => rfl⟩

end AtmKoala.Native
