import Mathlib.Algebra.BigOperators.Group.Finset.Piecewise
import Mathlib.Data.Fintype.Prod
import Mathlib.Logic.Relation
import AtmKoala.Lib.Run
import AtmKoala.Native.Model

/-!
References to pipes.

* `Move` is what a call can do to the pipe entries of the tables and to the pool:
  drop an entry or add one; `Made` is a new pipe. The calls on descriptors are
  sequences of these (`nativeFdClose_moves` and the lemmas around it).
* `Counted`: the references of a pipe are the open descriptors of its two ends.
  Each change keeps it (`Counted.move`, `Counted.made`).
-/

namespace AtmKoala.Native

open Lib
open Sched (Slot)
open Function (update_of_ne update_self)

variable {w w' w'' : World} {t : Slot} {k : Fd} {i : Fin 8} {e : PipeEnd}

/-! ### Entries -/

/-- The pipe end behind descriptor `k` of task `t`. -/
def entry (w : World) (t : Slot) (k : Fd) : Option (Fin 8 × PipeEnd) :=
  if (w.tables t).ready then (w.tables t).pipeMap k else none

/-- How often `x` occurs among the entries `f`. -/
def occurrences (f : Slot → Fd → Option (Fin 8 × PipeEnd)) (x : Fin 8 × PipeEnd) : Nat :=
  (Finset.univ.filter fun y : Slot × Fd => f y.1 y.2 = some x).card

/-- The number of descriptors open on an end of a pipe. -/
def ends (w : World) (i : Fin 8) (e : PipeEnd) : Nat := occurrences (entry w) (i, e)

def Pipe.refs (p : Pipe) : PipeEnd → Nat
  | .read => p.readRefs
  | .write => p.writeRefs

/-- The pipe after its last reference may have gone. -/
def Pipe.settle (p : Pipe) : Pipe :=
  if p.readRefs = 0 ∧ p.writeRefs = 0 then Pipe.zero else p

/-- **One change of the pipe entries of task `t`.** A task that waits on the other
end of a pipe is woken when an entry is dropped. -/
inductive Move (t : Slot) (w w' : World) : Prop where
  | same (entries : ∀ u j, entry w' u j = entry w u j) (pipes : w'.pipes = w.pipes)
      (sched : w'.sched = w.sched)
  | dropped (k : Fd) (i : Fin 8) (e : PipeEnd) (held : entry w t k = some (i, e))
      (entries : ∀ u j, entry w' u j = if u = t ∧ j = k then none else entry w u j)
      (pipes : w'.pipes = Function.update w.pipes i ((w.pipes i).drop e).settle)
      (sched : w'.sched = (wakeOther w i e).sched)
  | added (k : Fd) (i : Fin 8) (e : PipeEnd) (free : entry w t k = none)
      (used : (w.pipes i).used = true) (copied : ∃ u j, entry w u j = some (i, e)) (low : 3 ≤ k.val)
      (entries : ∀ u j, entry w' u j = if u = t ∧ j = k then some (i, e) else entry w u j)
      (pipes : w'.pipes = Function.update w.pipes i ((w.pipes i).add e))
      (sched : w'.sched = w.sched)

/-- A new pipe, with one descriptor on each end. -/
def Pipe.new : Pipe := { Pipe.zero with used := true, readRefs := 1, writeRefs := 1 }

/-- Pipe `i` has been created. -/
structure Made (w w' : World) (t : Slot) (k k' : Fd) (i : Fin 8) : Prop where
  free : entry w t k = none
  free' : entry w t k' = none
  ne : k ≠ k'
  unused : (w.pipes i).used = false
  low : 3 ≤ k.val
  low' : 3 ≤ k'.val
  entries : ∀ u j, entry w' u j = if u = t ∧ j = k then some (i, .read)
    else if u = t ∧ j = k' then some (i, .write) else entry w u j
  pipes : w'.pipes = Function.update w.pipes i Pipe.new
  sched : w'.sched = w.sched

/-- Any number of changes. -/
def Moves (t : Slot) : World → World → Prop := Relation.ReflTransGen (Move t)

theorem Moves.trans (first : Moves t w w') (second : Moves t w' w'') : Moves t w w'' :=
  Relation.ReflTransGen.trans first second

/-- Nothing that concerns pipes has changed. -/
structure Inert (w w' : World) : Prop where
  ready : ∀ t, (w'.tables t).ready = (w.tables t).ready
  pipeMap : ∀ t, (w'.tables t).pipeMap = (w.tables t).pipeMap
  pipes : w'.pipes = w.pipes
  sched : w'.sched = w.sched

theorem Inert.refl (w : World) : Inert w w := ⟨fun _ => rfl, fun _ => rfl, rfl, rfl⟩

theorem Inert.trans (first : Inert w w') (second : Inert w' w'') : Inert w w'' :=
  ⟨fun t => (second.ready t).trans (first.ready t),
    fun t => (second.pipeMap t).trans (first.pipeMap t), second.pipes.trans first.pipes,
    second.sched.trans first.sched⟩

theorem Inert.entry (inert : Inert w w') (t : Slot) (k : Fd) : entry w' t k = entry w t k := by
  unfold Native.entry
  rw [inert.ready, inert.pipeMap]

theorem Inert.moves (inert : Inert w w') : Moves t w w' :=
  .single (.same inert.entry inert.pipes inert.sched)

/-! ### What is inert -/

theorem inert_mapTable {f : Table → Table} (ready : ∀ table, (f table).ready = table.ready)
    (pipeMap : ∀ table, (f table).pipeMap = table.pipeMap) : Inert w (w.mapTable t f) := by
  refine ⟨fun u => ?_, fun u => ?_, rfl, rfl⟩
  · by_cases h : u = t
    · subst h
      simp [World.mapTable, ready]
    · simp [World.mapTable, h]
  · by_cases h : u = t
    · subst h
      simp [World.mapTable, pipeMap]
    · simp [World.mapTable, h]

theorem inert_setFd (b : Option (Fin 64)) : Inert w (w.setFd t k b) :=
  inert_mapTable (fun _ => rfl) (fun _ => rfl)

theorem inert_setSocket (n : Option (Fin 16)) : Inert w (w.setSocket t k n) :=
  inert_mapTable (fun _ => rfl) (fun _ => rfl)

theorem inert_setFlags (n : UInt32) : Inert w (w.setFlags t k n) :=
  inert_mapTable (fun _ => rfl) (fun _ => rfl)

theorem inert_atmPosixOpen (ok : Bool) : Inert w (atmPosixOpen w ok).1 := by
  unfold atmPosixOpen
  split
  · exact .refl w
  · split
    · exact .refl w
    · exact ⟨fun _ => rfl, fun _ => rfl, rfl, rfl⟩

theorem inert_atmPosixClose (b : Fin 64) : Inert w (atmPosixClose w b) :=
  ⟨fun _ => rfl, fun _ => rfl, rfl, rfl⟩

theorem inert_fdExecReset : Inert w (fdExecReset w t) := by
  obtain ⟨f, same⟩ := fdExecReset_changes w t
  rw [same]
  exact ⟨fun _ => rfl, fun _ => rfl, rfl, rfl⟩

theorem inert_fdExecDrop : Inert w (fdExecDrop w t) := by
  obtain ⟨f, same⟩ := fdExecDrop_changes w t
  rw [same]
  exact ⟨fun _ => rfl, fun _ => rfl, rfl, rfl⟩

theorem inert_fdExecSet (value : Bool) : Inert w (fdExecSet w t k value).1 := by
  obtain ⟨f, same⟩ := fdExecSet_changes w t k value
  rw [same]
  exact ⟨fun _ => rfl, fun _ => rfl, rfl, rfl⟩

theorem wake_tables (waiter : Option Slot) :
    (wake w waiter).tables = w.tables ∧ (wake w waiter).pipes = w.pipes := by
  unfold wake
  split
  · exact ⟨rfl, rfl⟩
  · split
    · exact ⟨rfl, rfl⟩
    · exact ⟨rfl, rfl⟩

theorem wakeOther_tables (w : World) (i : Fin 8) (e : PipeEnd) :
    (wakeOther w i e).tables = w.tables ∧ (wakeOther w i e).pipes = w.pipes := by
  cases e with
  | read => exact wake_tables _
  | write => exact wake_tables _

/-- Waking only looks at the waiters and at the scheduler. -/
theorem wakeOther_sched (read : (w'.pipes i).readerWaiter = (w.pipes i).readerWaiter)
    (write : (w'.pipes i).writerWaiter = (w.pipes i).writerWaiter) (sched : w'.sched = w.sched) :
    (wakeOther w' i e).sched = (wakeOther w i e).sched := by
  have same : ∀ waiter, (wake w' waiter).sched = (wake w waiter).sched := by
    intro waiter
    unfold wake
    split
    · exact sched
    · rw [sched]
      split
      · rfl
      · exact sched
  cases e with
  | read =>
    unfold wakeOther pipeWakeWriter
    rw [write]
    exact same _
  | write =>
    unfold wakeOther pipeWakeReader
    rw [read]
    exact same _

theorem inert_nativeSocketClose (fd : Int) : Inert w (nativeSocketClose w t fd).1 := by
  unfold nativeSocketClose
  split
  · exact .refl w
  · split
    · exact .refl w
    · split
      · have := inert_setSocket (w := w) (t := t) (k := ‹Fd›) none
        exact ⟨this.ready, this.pipeMap, this.pipes, this.sched⟩
      · exact .refl w

theorem inert_nativeSocketTaskCleanup : Inert w (nativeSocketTaskCleanup w t) := by
  unfold nativeSocketTaskCleanup
  refine List.foldlRecOn _ _ (.refl w) fun w' inert k _ => ?_
  split
  · exact inert.trans (inert_nativeSocketClose _)
  · exact inert

/-! ### Moves of the pipe functions -/

theorem entry_setPipe (p : Option (Fin 8 × PipeEnd)) (ready : (w.tables t).ready = true) (u : Slot)
    (j : Fd) : entry (w.setPipe t k p) u j = if u = t ∧ j = k then p else entry w u j := by
  unfold entry World.setPipe World.mapTable
  by_cases h : u = t
  · subst h
    by_cases hj : j = k
    · subst hj
      simp [ready]
    · simp [hj]
  · simp [h]

theorem entry_mapPipe (f : Pipe → Pipe) (u : Slot) (j : Fd) :
    entry (w.mapPipe i f) u j = entry w u j := rfl

theorem pipeDecode_some {fd : Int} (h : pipeDecode w t fd = some (k, i, e)) :
    fdIdx fd = some k ∧ (w.tables t).ready = true ∧ 3 ≤ k.val ∧
      (w.tables t).pipeMap k = some (i, e) ∧ (w.pipes i).used = true := by
  unfold pipeDecode at h
  split at h
  · cases h
  · rename_i k' idx
    split at h
    · rename_i open_
      split at h
      · cases h
      · rename_i i' e' mapped
        split at h
        · rename_i used
          cases h
          exact ⟨idx, open_.1, open_.2, mapped, used⟩
        · cases h
    · cases h

theorem entry_of_decode {fd : Int} (h : pipeDecode w t fd = some (k, i, e)) :
    entry w t k = some (i, e) := by
  obtain ⟨-, ready, -, mapped, -⟩ := pipeDecode_some h
  unfold entry
  rw [if_pos ready, mapped]

theorem fdIdx_val (k : Fd) : fdIdx (k.val : Int) = some k := by
  unfold fdIdx
  rw [dif_pos ⟨by omega, by omega⟩]
  simp

theorem entry_of_free (free : pipeFdFree w t k = true) : 3 ≤ k.val ∧ entry w t k = none := by
  unfold pipeFdFree Table.free at free
  simp only [Bool.and_eq_true, decide_eq_true_eq, Option.isNone_iff_eq_none] at free
  refine ⟨free.1, ?_⟩
  unfold entry
  split
  · exact free.2.2
  · rfl

theorem nativePipeClose_move {fd : Int} (h : pipeDecode w t fd = some (k, i, e)) :
    (∀ u j, entry (nativePipeClose w t fd).1 u j = if u = t ∧ j = k then none else entry w u j) ∧
      (nativePipeClose w t fd).1.pipes =
        Function.update w.pipes i ((w.pipes i).drop e).settle ∧
      (nativePipeClose w t fd).1.sched = (wakeOther w i e).sched := by
  obtain ⟨-, ready, -, -, -⟩ := pipeDecode_some h
  simp only [nativePipeClose, h]
  obtain ⟨tables, pipes⟩ := wakeOther_tables ((w.setPipe t k none).mapPipe i (·.drop e)) i e
  have here : ((w.setPipe t k none).mapPipe i (·.drop e)).pipes i = (w.pipes i).drop e :=
    update_self ..
  have sched₂ : (wakeOther ((w.setPipe t k none).mapPipe i (·.drop e)) i e).sched =
      (wakeOther w i e).sched := by
    refine wakeOther_sched ?_ ?_ rfl
    · rw [here]
      cases e with
      | read => rfl
      | write => rfl
    · rw [here]
      cases e with
      | read => rfl
      | write => rfl
  set w₂ := wakeOther ((w.setPipe t k none).mapPipe i (·.drop e)) i e
  have pipes₂ : w₂.pipes = Function.update w.pipes i ((w.pipes i).drop e) := pipes
  have entries₂ : ∀ u j, entry w₂ u j = if u = t ∧ j = k then none else entry w u j := by
    intro u j
    rw [← entry_setPipe none ready]
    unfold entry
    rw [tables]
    rfl
  have atI : w₂.pipes i = (w.pipes i).drop e := by
    rw [pipes₂, update_self]
  unfold pipeMaybeFree
  rw [atI]
  unfold Pipe.settle
  split
  · refine ⟨entries₂, ?_, sched₂⟩
    show Function.update w₂.pipes i Pipe.zero = _
    rw [pipes₂, Function.update_idem]
  · exact ⟨entries₂, pipes₂, sched₂⟩

theorem nativePipeClose_moves (fd : Int) : Moves t w (nativePipeClose w t fd).1 := by
  cases h : pipeDecode w t fd with
  | none =>
    simp only [nativePipeClose, h]
    exact .refl
  | some d =>
    obtain ⟨k, i, e⟩ := d
    obtain ⟨entries, pipes, sched⟩ := nativePipeClose_move h
    exact .single (.dropped k i e (entry_of_decode h) entries pipes sched)

theorem nativePipeCreate_made :
    nativePipeCreate w t = (w, none) ∨
      ∃ k k' i, (nativePipeCreate w t).2 = some (k, k') ∧ Made w (nativePipeCreate w t).1 t k k' i := by
  unfold nativePipeCreate
  split
  · exact .inl rfl
  · rename_i ready
    split
    · exact .inl rfl
    · rename_i readFd foundRead
      split
      · exact .inl rfl
      · rename_i writeFd foundWrite
        split
        · exact .inl rfl
        · rename_i i foundPipe
          have readFree := entry_of_free (List.find?_some foundRead)
          have later := List.find?_some foundWrite
          simp only [Bool.and_eq_true, decide_eq_true_eq] at later
          have writeFree := entry_of_free later.2
          have unused : (w.pipes i).used = false := by simpa using List.find?_some foundPipe
          have open_ : (w.tables t).ready = true := by simpa using ready
          have ne : readFd ≠ writeFd := ne_of_lt later.1
          refine .inr ⟨readFd, writeFd, i, rfl, readFree.2, writeFree.2, ne, unused, readFree.1,
            writeFree.1, fun u j => ?_, rfl, rfl⟩
          set w₁ := w.mapPipe i fun _ => { Pipe.zero with used := true, readRefs := 1, writeRefs := 1 }
          have open₁ : (w₁.tables t).ready = true := open_
          have open₂ : ((w₁.setPipe t readFd (some (i, .read))).tables t).ready = true := by
            simpa [World.setPipe, World.mapTable] using open₁
          have before : entry w₁ u j = entry w u j := rfl
          rw [entry_setPipe _ open₂, entry_setPipe _ open₁, before]
          by_cases isRead : u = t ∧ j = readFd
          · have notWrite : ¬(u = t ∧ j = writeFd) := fun h => ne (isRead.2.symm.trans h.2)
            rw [if_neg notWrite, if_pos isRead, if_pos isRead]
          · rw [if_neg isRead, if_neg isRead]

theorem nativePipeDup_moves (oldfd : Int) (newfd : Fd) : Moves t w (nativePipeDup w t oldfd newfd).1 := by
  unfold nativePipeDup
  split
  · exact .refl
  · rename_i k i e h
    split
    · exact .refl
    · rename_i free
      obtain ⟨-, ready, -, -, used⟩ := pipeDecode_some h
      obtain ⟨low, none⟩ := entry_of_free (by simpa using free : pipeFdFree w t newfd = true)
      refine .single (.added newfd i e none used ⟨t, k, entry_of_decode h⟩ low (fun u j => ?_) rfl rfl)
      rw [entry_setPipe _ (by simpa [World.mapPipe] using ready), entry_mapPipe]

theorem nativePipeInherit_moves {child : Slot} (parent : Slot) (k : Fd)
    (ready : (w.tables child).ready = true) :
    Moves child w (nativePipeInherit w child parent k).1 := by
  unfold nativePipeInherit
  split
  · exact .refl
  · rename_i free
    split
    · exact .refl
    · rename_i j i e h
      obtain ⟨-, -, -, -, used⟩ := pipeDecode_some h
      obtain ⟨low, none⟩ := entry_of_free (by simpa using free : pipeFdFree w child k = true)
      refine .single (.added k i e none used ⟨parent, j, entry_of_decode h⟩ low (fun u j => ?_) rfl rfl)
      rw [entry_setPipe _ (by simpa [World.mapPipe] using ready), entry_mapPipe]

/-! ### Counting -/

/-- **References are counted**: a pipe has as many references to each end as there
are descriptors open on it, and it is in use while there is one. The first three
descriptors are never pipes. -/
structure Counted (w : World) : Prop where
  refs : ∀ i e, (w.pipes i).refs e = ends w i e
  used : ∀ i, (w.pipes i).used = true ↔ (w.pipes i).readRefs ≠ 0 ∨ (w.pipes i).writeRefs ≠ 0
  low : ∀ t k p, entry w t k = some p → 3 ≤ k.val

/-- The number of open descriptors after one entry has changed. -/
theorem occurrences_update {f g : Slot → Fd → Option (Fin 8 × PipeEnd)}
    {x : Option (Fin 8 × PipeEnd)}
    (entries : ∀ u j, g u j = if u = t ∧ j = k then x else f u j) (y : Fin 8 × PipeEnd) :
    occurrences g y + (if f t k = some y then 1 else 0) =
      occurrences f y + (if x = some y then 1 else 0) := by
  unfold occurrences
  rw [Finset.card_filter, Finset.card_filter]
  rw [← Finset.add_sum_erase Finset.univ _ (Finset.mem_univ (t, k)),
    ← Finset.add_sum_erase Finset.univ _ (Finset.mem_univ (t, k))]
  have rest : ∑ z ∈ Finset.univ.erase (t, k), (if g z.1 z.2 = some y then 1 else 0) =
      ∑ z ∈ Finset.univ.erase (t, k), (if f z.1 z.2 = some y then 1 else 0) := by
    refine Finset.sum_congr rfl fun z mem => ?_
    have ne : ¬(z.1 = t ∧ z.2 = k) := fun h => (Finset.mem_erase.mp mem).1 (Prod.ext h.1 h.2)
    rw [entries, if_neg ne]
  have here : g t k = x := by rw [entries, if_pos ⟨rfl, rfl⟩]
  simp only [rest, here]
  omega

/-- Without a change of entries the numbers are the same. -/
theorem ends_congr (entries : ∀ u j, entry w' u j = entry w u j) (i : Fin 8) (e : PipeEnd) :
    ends w' i e = ends w i e := by
  unfold ends
  rw [funext fun u => funext fun j => entries u j]

theorem ends_pos (held : entry w t k = some (i, e)) : 0 < ends w i e :=
  Finset.card_pos.mpr ⟨(t, k), Finset.mem_filter.mpr ⟨Finset.mem_univ _, held⟩⟩

/-- A descriptor keeps its pipe in use. -/
theorem Counted.used_of_entry (counted : Counted w) (held : entry w t k = some (i, e)) :
    (w.pipes i).used = true := by
  have pos := ends_pos held
  rw [← counted.refs] at pos
  refine (counted.used i).mpr ?_
  cases e with
  | read => exact .inl (Nat.ne_of_gt pos)
  | write => exact .inr (Nat.ne_of_gt pos)

theorem refs_settle (p : Pipe) (e : PipeEnd) : p.settle.refs e = p.refs e := by
  unfold Pipe.settle
  split
  · rename_i gone
    cases e with
    | read => exact gone.1.symm
    | write => exact gone.2.symm
  · rfl

theorem refs_drop (p : Pipe) (e e' : PipeEnd) :
    (p.drop e).refs e' = p.refs e' - if e = e' then 1 else 0 := by
  cases e <;> cases e' <;> simp [Pipe.drop, Pipe.refs]

theorem refs_add (p : Pipe) (e e' : PipeEnd) :
    (p.add e).refs e' = p.refs e' + if e = e' then 1 else 0 := by
  cases e <;> cases e' <;> simp [Pipe.add, Pipe.refs]

/-- A pipe in use that loses a reference stays in use while it has another one. -/
theorem used_settle_drop {p : Pipe} (used : p.used = true) (e : PipeEnd) :
    (p.drop e).settle.used = true ↔
      (p.drop e).settle.readRefs ≠ 0 ∨ (p.drop e).settle.writeRefs ≠ 0 := by
  have kept : (p.drop e).used = true := by
    cases e <;> exact used
  unfold Pipe.settle
  split
  · simp [Pipe.zero]
  · rename_i some_
    rw [kept]
    simp only [true_iff]
    omega

/-- **A change keeps the count.** -/
theorem Counted.move (counted : Counted w) (move : Move t w w') : Counted w' := by
  cases move with
  | same entries pipes _ =>
    refine ⟨fun i e => ?_, fun i => ?_, fun t k p held => ?_⟩
    · rw [pipes, counted.refs, ends_congr entries]
    · rw [pipes]
      exact counted.used i
    · rw [entries] at held
      exact counted.low t k p held
  | dropped k i e held entries pipes _ =>
    have used := counted.used_of_entry held
    refine ⟨fun j e' => ?_, fun j => ?_, fun u j p kept => ?_⟩
    · have change := occurrences_update entries (j, e')
      simp only [held, Option.some.injEq, Prod.mk.injEq, reduceCtorEq, if_false] at change
      rw [pipes]
      by_cases h : j = i
      · subst h
        rw [update_self, refs_settle, refs_drop, counted.refs]
        simp only [true_and] at change
        unfold ends
        omega
      · rw [update_of_ne h, counted.refs]
        unfold ends
        have ne : ¬(i = j ∧ e = e') := fun both => h both.1.symm
        rw [if_neg ne] at change
        omega
    · rw [pipes]
      by_cases h : j = i
      · subst h
        rw [update_self]
        exact used_settle_drop used e
      · rw [update_of_ne h]
        exact counted.used j
    · rw [entries] at kept
      split at kept
      · cases kept
      · exact counted.low u j p kept
  | added k i e free used _ low entries pipes _ =>
    refine ⟨fun j e' => ?_, fun j => ?_, fun u j p kept => ?_⟩
    · have change := occurrences_update entries (j, e')
      simp only [free, Option.some.injEq, Prod.mk.injEq, reduceCtorEq, if_false] at change
      rw [pipes]
      by_cases h : j = i
      · subst h
        rw [update_self, refs_add, counted.refs]
        simp only [true_and] at change
        unfold ends
        omega
      · rw [update_of_ne h, counted.refs]
        unfold ends
        have ne : ¬(i = j ∧ e = e') := fun both => h both.1.symm
        rw [if_neg ne] at change
        omega
    · rw [pipes]
      by_cases h : j = i
      · subst h
        rw [update_self]
        cases e with
        | read => simp [Pipe.add, used]
        | write => simp [Pipe.add, used]
      · rw [update_of_ne h]
        exact counted.used j
    · rw [entries] at kept
      split at kept
      · rename_i here
        rw [here.2]
        exact low
      · exact counted.low u j p kept
/-- **A creation keeps the count.** -/
theorem Counted.made {k' : Fd} (counted : Counted w) (made : Made w w' t k k' i) : Counted w' := by
  obtain ⟨free, free', ne, unused, low, low', entries, pipes, -⟩ := made
  -- One entry after the other.
  let f : Slot → Fd → Option (Fin 8 × PipeEnd) :=
    fun u j => if u = t ∧ j = k' then some (i, .write) else entry w u j
  have first := fun y => occurrences_update (f := entry w) (g := f) (fun _ _ => rfl) y
  have second := fun y => occurrences_update (f := f) (g := entry w') entries y
  have free₂ : f t k = none := by
    simp only [f, ne, and_false, if_false]
    exact free
  have none_ : ∀ e', ends w i e' = 0 := by
    intro e'
    rw [← counted.refs]
    have gone := (counted.used i).not.mp (by rw [unused]; exact Bool.false_ne_true)
    rw [not_or, not_not, not_not] at gone
    cases e' with
    | read => exact gone.1
    | write => exact gone.2
  refine ⟨fun j e' => ?_, fun j => ?_, fun u j p kept => ?_⟩
  · have one := first (j, e')
    have two := second (j, e')
    simp only [free', Option.some.injEq, Prod.mk.injEq, reduceCtorEq, if_false] at one
    simp only [free₂, Option.some.injEq, Prod.mk.injEq, reduceCtorEq, if_false] at two
    rw [pipes]
    by_cases h : j = i
    · subst h
      have zero : occurrences (entry w) (j, e') = 0 := none_ e'
      rw [update_self]
      unfold ends
      cases e' with
      | read =>
        simp only [Pipe.refs, Pipe.new]
        simp at one two
        omega
      | write =>
        simp only [Pipe.refs, Pipe.new]
        simp at one two
        omega
    · rw [update_of_ne h, counted.refs]
      unfold ends
      have other : ∀ e, ¬(i = j ∧ e = e') := fun e both => h both.1.symm
      rw [if_neg (other _)] at one two
      omega
  · rw [pipes]
    by_cases h : j = i
    · subst h
      simp [Pipe.new]
    · rw [update_of_ne h]
      exact counted.used j
  · rw [entries] at kept
    split at kept
    · rename_i here
      rw [here.2]
      exact low
    · split at kept
      · rename_i here
        rw [here.2]
        exact low'
      · exact counted.low u j p kept

/-! ### Moves of the descriptor functions -/

theorem Moves.inert (moves : Moves t w w') (inert : Inert w' w'') : Moves t w w'' :=
  Relation.ReflTransGen.trans moves inert.moves

theorem Counted.moves (counted : Counted w) (moves : Moves t w w') : Counted w' := by
  induction moves with
  | refl => exact counted
  | tail _ move ih => exact ih.move move

theorem nativePipeClose_ready (fd : Int) (u : Slot) :
    ((nativePipeClose w t fd).1.tables u).ready = (w.tables u).ready := by
  unfold nativePipeClose
  split
  · rfl
  · rename_i k i e _
    have tables := (wakeOther_tables ((w.setPipe t k none).mapPipe i (·.drop e)) i e).1
    have before : (((w.setPipe t k none).mapPipe i (·.drop e)).tables u).ready =
        (w.tables u).ready := by
      by_cases h : u = t
      · subst h
        simp [World.setPipe, World.mapTable, World.mapPipe]
      · simp [World.setPipe, World.mapTable, World.mapPipe, h]
    rw [← before, ← tables]
    unfold pipeMaybeFree
    dsimp only
    split
    · rfl
    · rfl

/-- The descriptor of an entry decodes. -/
theorem Counted.decode (counted : Counted w) (held : entry w t k = some (i, e)) :
    pipeDecode w t k.val = some (k, i, e) := by
  have used := counted.used_of_entry held
  have low := counted.low t k _ held
  unfold entry at held
  split at held
  · rename_i ready
    simp [pipeDecode, fdIdx_val, ready, low, held, used]
  · cases held

/-- Closing the pipe descriptors of a task leaves it none. -/
theorem nativePipeTaskCleanup_moves (counted : Counted w) (ready : (w.tables t).ready = true) :
    Moves t w (nativePipeTaskCleanup w t) ∧ (∀ k, entry (nativePipeTaskCleanup w t) t k = none) ∧
      ∀ u, ((nativePipeTaskCleanup w t).tables u).ready = (w.tables u).ready := by
  -- The rounds so far have emptied the descriptors `done` and filled none.
  suffices all : ∀ (ks : List Fd) (w : World), Counted w → (w.tables t).ready = true →
      let w' := ks.foldl (fun w k => if ((w.tables t).pipeMap k).isSome then
        (nativePipeClose w t k.val).1 else w) w
      Moves t w w' ∧ (∀ k, k ∈ ks ∨ entry w t k = none → entry w' t k = none) ∧
        ∀ u, (w'.tables u).ready = (w.tables u).ready by
    obtain ⟨moves, empty, same⟩ := all ((List.finRange 32).filter (3 ≤ ·.val)) w counted ready
    refine ⟨moves, fun k => empty k ?_, same⟩
    by_cases low : 3 ≤ k.val
    · left
      simpa using low
    · right
      cases held : entry w t k with
      | none => rfl
      | some p => exact absurd (counted.low t k p held) low
  intro ks
  induction ks with
  | nil => exact fun w _ _ => ⟨.refl, fun k h => h.resolve_left List.not_mem_nil, fun _ => rfl⟩
  | cons k ks ih =>
    intro w counted ready
    rw [List.foldl_cons]
    by_cases mapped : ((w.tables t).pipeMap k).isSome
    · rw [if_pos mapped]
      obtain ⟨⟨i, e⟩, eq⟩ := Option.isSome_iff_exists.mp mapped
      have held : entry w t k = some (i, e) := by
        unfold entry
        rw [if_pos ready, eq]
      obtain ⟨entries, -, -⟩ := nativePipeClose_move (counted.decode held)
      have moves := nativePipeClose_moves (w := w) (t := t) k.val
      have same := nativePipeClose_ready (w := w) (t := t) k.val
      obtain ⟨moves', empty, same'⟩ := ih _ (counted.moves moves) ((same t).trans ready)
      refine ⟨moves.trans moves', fun k' h => empty k' ?_, fun u => (same' u).trans (same u)⟩
      rw [entries]
      by_cases here : k' = k
      · exact .inr (if_pos ⟨rfl, here⟩)
      · rw [if_neg fun h => here h.2]
        exact h.imp_left fun mem => (List.mem_cons.mp mem).resolve_left here
    · rw [if_neg mapped]
      obtain ⟨moves', empty, same'⟩ := ih w counted ready
      refine ⟨moves', fun k' h => empty k' ?_, same'⟩
      by_cases here : k' = k
      · right
        subst here
        unfold entry
        rw [if_pos ready]
        simpa using mapped
      · exact h.imp_left fun mem => (List.mem_cons.mp mem).resolve_left here

/-- A table without pipe entries may become ready or not, and have its entries reset. -/
theorem moves_of_empty (empty : ∀ k, entry w t k = none) (empty' : ∀ k, entry w' t k = none)
    (others : ∀ u, u ≠ t → w'.tables u = w.tables u) (pipes : w'.pipes = w.pipes)
    (sched : w'.sched = w.sched) : Moves t w w' := by
  refine .single (.same (fun u j => ?_) pipes sched)
  by_cases h : u = t
  · rw [h, empty, empty']
  · unfold entry
    rw [others u h]

theorem mapTable_of_ne {u : Slot} (f : Table → Table) (ne : u ≠ t) :
    (w.mapTable t f).tables u = w.tables u := update_of_ne ne ..

theorem mapTable_self (f : Table → Table) : (w.mapTable t f).tables t = f (w.tables t) :=
  update_self ..

theorem nativeFdTaskCleanup_moves (counted : Counted w) : Moves t w (nativeFdTaskCleanup w t) := by
  rw [nativeFdTaskCleanup_eq]
  split
  · exact .refl
  · rename_i ready
    have open_ : (w.tables t).ready = true := by simpa using ready
    have inert₁ : Inert w (nativeDirTaskInit w t) := inert_mapTable (fun _ => rfl) (fun _ => rfl)
    have counted₁ := counted.moves (inert₁.moves (t := t))
    obtain ⟨moves₂, empty₂, same₂⟩ :=
      nativePipeTaskCleanup_moves counted₁ ((inert₁.ready t).trans open_)
    set w₂ := nativePipeTaskCleanup (nativeDirTaskInit w t) t
    have inert₃ : Inert w₂ (nativeSocketTaskCleanup w₂ t) := inert_nativeSocketTaskCleanup
    have inert₄ :
        Inert w₂ ((List.finRange 32).foldl (cleanupTurn t) (nativeSocketTaskCleanup w₂ t)) := by
      refine List.foldlRecOn _ _ inert₃ fun w' inert k _ => ?_
      unfold cleanupTurn
      refine (inert.trans ?_).trans ((inert_setFd _).trans (inert_setFlags _))
      split
      · exact .refl w'
      · exact inert_atmPosixClose _
    set w₄ := (List.finRange 32).foldl (cleanupTurn t) (nativeSocketTaskCleanup w₂ t)
    have empty₄ : ∀ k, entry w₄ t k = none := fun k => (inert₄.entry t k).trans (empty₂ k)
    have closed : Moves t w₄ (w₄.mapTable t fun table => { table with ready := false }) := by
      refine moves_of_empty empty₄ (fun k => ?_) (fun u ne => mapTable_of_ne _ ne) rfl rfl
      unfold entry
      rw [mapTable_self]
      rfl
    exact ((((inert₁.moves.trans moves₂).inert inert₄).trans closed).inert inert_fdExecDrop)

theorem freshTable_tables (u : Slot) (ne : u ≠ t) (w : World) :
    ((freshTable w t).tables u).ready = (w.tables u).ready ∧
      ((freshTable w t).tables u).pipeMap = (w.tables u).pipeMap := by
  have inert := inert_fdExecReset (t := t)
    (w := w.mapTable t fun table => { table with fdMap := fun _ => none, flags := fun _ => 0 })
  unfold freshTable nativeDirTaskInit nativePipeTaskInit nativeSocketTaskInit
  rw [mapTable_of_ne _ ne, mapTable_of_ne _ ne, mapTable_of_ne _ ne, inert.ready, inert.pipeMap,
    mapTable_of_ne _ ne]
  exact ⟨rfl, rfl⟩

theorem freshTable_pipes (w : World) :
    (freshTable w t).pipes = w.pipes ∧ (freshTable w t).sched = w.sched := by
  have inert := inert_fdExecReset (t := t)
    (w := w.mapTable t fun table => { table with fdMap := fun _ => none, flags := fun _ => 0 })
  exact ⟨inert.pipes, inert.sched⟩

theorem freshTable_pipeMap (w : World) (k : Fd) : ((freshTable w t).tables t).pipeMap k = none := by
  unfold freshTable nativeDirTaskInit nativePipeTaskInit
  rw [mapTable_self, mapTable_self]

/-- A new table is set up for a task that has no pipe descriptors. -/
theorem freshTable_moves (empty : ∀ k, entry w t k = none) {f : Table → Table}
    (pipeMap : ∀ table, (f table).pipeMap = table.pipeMap) :
    Moves t w ((freshTable w t).mapTable t f) := by
  refine .single (.same (fun u j => ?_) (freshTable_pipes w).1 (freshTable_pipes w).2)
  by_cases h : u = t
  · subst h
    rw [empty]
    unfold entry
    rw [mapTable_self, pipeMap, freshTable_pipeMap]
    split
    · rfl
    · rfl
  · unfold entry
    rw [mapTable_of_ne _ h, (freshTable_tables u h w).1, (freshTable_tables u h w).2]

theorem nativeFdTaskInit_moves (empty : ∀ k, entry w t k = none) (tty : Fin 3 → Bool) :
    Moves t w (nativeFdTaskInit w t tty) := by
  unfold nativeFdTaskInit
  dsimp only
  have fresh : Moves t w (freshTable w t) := by
    have := freshTable_moves empty (f := id) fun _ => rfl
    simpa [World.mapTable] using this
  have empty₁ : ∀ k, ((freshTable w t).tables t).pipeMap k = none := freshTable_pipeMap w
  set w₁ := freshTable w t
  have inert : Inert w₁ ([0, 1, 2].foldl (fun w k =>
      ((atmPosixOpen w (tty k)).1.setFd t (Fin.castLE (by decide) k) (atmPosixOpen w (tty k)).2).setFlags
        t (Fin.castLE (by decide) k) (if k = 0 then 0 else 1)) w₁) := by
    refine List.foldlRecOn _ _ (.refl w₁) fun w' inert k _ => ?_
    exact inert.trans ((inert_atmPosixOpen _).trans ((inert_setFd _).trans (inert_setFlags _)))
  set w₂ := [0, 1, 2].foldl (fun w k =>
      ((atmPosixOpen w (tty k)).1.setFd t (Fin.castLE (by decide) k) (atmPosixOpen w (tty k)).2).setFlags
        t (Fin.castLE (by decide) k) (if k = 0 then 0 else 1)) w₁
  have none₂ : ∀ k, (w₂.tables t).pipeMap k = none := fun k => by
    rw [inert.pipeMap]
    exact empty₁ k
  refine (fresh.inert inert).trans (moves_of_empty (t := t) (fun k => ?_) (fun k => ?_)
    (fun u ne => mapTable_of_ne _ ne) rfl rfl)
  · unfold entry
    rw [none₂]
    split
    · rfl
    · rfl
  · unfold entry
    rw [mapTable_self, none₂]
    rfl

/-- The flags of an inherited descriptor. -/
theorem inert_inheritFlags (child parent : Slot) (k : Fd) (n : UInt32) :
    Inert w (fdExecSet (w.setFlags child k n) child k
      (fdExecGet (w.setFlags child k n) parent k)).1 :=
  (inert_setFlags n).trans (inert_fdExecSet _)

theorem nativePipeInherit_ready (child parent : Slot) (k : Fd) (u : Slot) :
    ((nativePipeInherit w child parent k).1.tables u).ready = (w.tables u).ready := by
  unfold nativePipeInherit
  split
  · rfl
  · split
    · rfl
    · by_cases h : u = child
      · subst h
        simp [World.setPipe, World.mapTable, World.mapPipe]
      · simp [World.setPipe, World.mapTable, World.mapPipe, h]

theorem inheritFd_moves {child : Slot} (parent : Slot) (ready : (w.tables child).ready = true)
    (k : Fd) :
    Moves child w (inheritFd child parent w k).1 ∧
      ((inheritFd child parent w k).1.tables child).ready = true := by
  unfold inheritFd
  dsimp only
  split
  · exact ⟨.refl, ready⟩
  · split
    · rename_i b _
      have opened := inert_atmPosixOpen (w := w) (w.vfsUsed b)
      unfold atmPosixDup
      split
      · rename_i eq
        rw [eq] at opened
        exact ⟨opened.moves, (opened.ready child).trans ready⟩
      · rename_i w₁ b' eq
        rw [eq] at opened
        have inert := opened.trans ((inert_setFd (t := child) (k := k) (some b')).trans
          (inert_inheritFlags child parent k ((w.tables parent).flags k)))
        exact ⟨inert.moves, (inert.ready child).trans ready⟩
    · split
      · have moves := nativePipeInherit_moves parent k ready
        have same := nativePipeInherit_ready (w := w) child parent k child
        split
        · exact ⟨moves, same.trans ready⟩
        · have inert := inert_inheritFlags (w := (nativePipeInherit w child parent k).1)
            child parent k ((w.tables parent).flags k)
          exact ⟨moves.inert inert, (inert.ready child).trans (same.trans ready)⟩
      · exact ⟨.refl, ready⟩

theorem inheritFds_moves {child : Slot} (parent : Slot) (ks : List Fd)
    (ready : (w.tables child).ready = true) :
    Moves child w (inheritFds child parent w ks).1 := by
  induction ks generalizing w with
  | nil => exact .refl
  | cons k ks ih =>
    obtain ⟨moves, ready'⟩ := inheritFd_moves parent ready k
    unfold inheritFds
    split
    · rename_i eq
      rw [eq] at moves ready'
      exact moves.trans (ih ready')
    · rename_i eq
      rw [eq] at moves
      exact moves

theorem nativeFdTaskInherit_moves {child parent : Slot} (counted : Counted w)
    (empty : ∀ k, entry w child k = none) : Moves child w (nativeFdTaskInherit w child parent).1 := by
  unfold nativeFdTaskInherit
  split
  · exact .refl
  · dsimp only
    have fresh := freshTable_moves empty (f := fun table => { table with ready := true }) fun _ => rfl
    set w₁ := (freshTable w child).mapTable child fun table => { table with ready := true } with w₁_eq
    have ready₁ : (w₁.tables child).ready = true := by
      rw [w₁_eq, mapTable_self]
    split
    · exact fresh.trans (nativeFdTaskCleanup_moves (counted.moves fresh))
    · have moves := inheritFds_moves parent (List.finRange 32) ready₁
      split
      · rename_i eq
        rw [eq] at moves
        exact fresh.trans moves
      · rename_i eq
        rw [eq] at moves
        have all := fresh.trans moves
        exact all.trans (nativeFdTaskCleanup_moves (counted.moves all))

theorem nativeFdClose_moves (fd : Int) : Moves t w (nativeFdClose w t fd).1 := by
  unfold nativeFdClose
  split
  · exact ((nativePipeClose_moves fd).inert (inert_setFlags 0)).inert (inert_fdExecSet false)
  · split
    · split
      · exact .refl
      · exact ((inert_nativeSocketClose fd).trans
          ((inert_setFlags 0).trans (inert_fdExecSet false))).moves
    · split
      · exact .refl
      · exact ((inert_setFd none).trans ((inert_setFlags 0).trans
          ((inert_fdExecSet false).trans (inert_atmPosixClose _)))).moves

theorem nativeFdCloseOnExec_moves : Moves t w (nativeFdCloseOnExec w t) := by
  unfold nativeFdCloseOnExec
  split
  · exact .refl
  · refine List.foldlRecOn _ _ .refl fun w' moves k _ => ?_
    split
    · exact Moves.trans moves (nativeFdClose_moves _)
    · exact moves

theorem inert_nativeFdOpen (ok : Bool) (flags : UInt32) : Inert w (nativeFdOpen w t ok flags).1 := by
  unfold nativeFdOpen
  split
  · exact .refl w
  · rename_i k _
    have opened := inert_atmPosixOpen (w := w) ok
    split
    · rename_i eq
      rwa [eq] at opened
    · rename_i w₁ b eq
      rw [eq] at opened
      dsimp only
      have filled := opened.trans ((inert_setFd (t := t) (k := k) (some b)).trans
        (inert_setFlags (t := t) (k := k) (flags &&& (oAccmode ||| oNonblock))))
      have set_ := inert_fdExecSet (t := t) (k := k)
        (w := (w₁.setFd t k (some b)).setFlags t k (flags &&& (oAccmode ||| oNonblock)))
        (flags &&& oCloexec ≠ 0)
      split
      · rename_i eq'
        rw [eq'] at set_
        exact filled.trans set_
      · rename_i eq'
        rw [eq'] at set_
        exact (filled.trans set_).trans ((inert_atmPosixClose b).trans (inert_setFd none))

theorem nativeFdPipe2_moves (flags : UInt32) :
    Moves t w (nativeFdPipe2 w t flags).1 ∨
      ∃ w₁ k k' i, Made w w₁ t k k' i ∧ Moves t w₁ (nativeFdPipe2 w t flags).1 := by
  unfold nativeFdPipe2
  split
  · exact .inl .refl
  · have made := nativePipeCreate_made (w := w) (t := t)
    split
    · rename_i eq
      rcases made with same | ⟨k, k', i, some_, -⟩
      · rw [eq] at same
        obtain ⟨rfl, -⟩ := Prod.mk.inj same
        exact .inl .refl
      · rw [eq] at some_
        cases some_
    · rename_i w₁ readFd writeFd eq
      rcases made with none_ | ⟨k, k', i, -, made⟩
      · rw [eq] at none_
        cases none_
      rw [eq] at made
      refine .inr ⟨w₁, k, k', i, made, ?_⟩
      dsimp only
      set w₂ := (w₁.setFlags t readFd (flags &&& oNonblock)).setFlags t writeFd
        (1 ||| (flags &&& oNonblock))
      have flagged : Moves t w₁ w₂ := ((inert_setFlags _).trans (inert_setFlags _)).moves
      have undone : ∀ w' : World, Moves t w₁ w' →
          Moves t w₁ (nativePipeClose (nativePipeClose w' t readFd.val).1 t writeFd.val).1 :=
        fun w' moves => (moves.trans (nativePipeClose_moves _)).trans (nativePipeClose_moves _)
      have first := inert_fdExecSet (w := w₂) (t := t) (k := readFd) (flags &&& oCloexec ≠ 0)
      split
      · rename_i eq₁
        rw [eq₁] at first
        exact undone _ (flagged.inert first)
      · rename_i w₃ eq₁
        rw [eq₁] at first
        have second := inert_fdExecSet (w := w₃) (t := t) (k := writeFd) (flags &&& oCloexec ≠ 0)
        split
        · rename_i eq₂
          rw [eq₂] at second
          exact undone _ (flagged.inert (first.trans second))
        · rename_i eq₂
          rw [eq₂] at second
          exact flagged.inert (first.trans second)

theorem dupOnto_moves (fd : Int) (newfd : Fd) : Moves t w (dupOnto w t fd newfd).1 := by
  unfold dupOnto
  split
  · have dup := nativePipeDup_moves (w := w) (t := t) fd newfd
    dsimp only
    split
    · exact dup
    · exact dup.inert ((inert_setFlags _).trans (inert_fdExecSet false))
  · split
    · exact .refl
    · rename_i b _
      have opened := inert_atmPosixOpen (w := w) (w.vfsUsed b)
      unfold atmPosixDup
      split
      · rename_i eq
        rw [eq] at opened
        exact opened.moves
      · rename_i eq
        rw [eq] at opened
        exact (opened.trans ((inert_setFd _).trans ((inert_setFlags _).trans
          (inert_fdExecSet false)))).moves

theorem nativeFdDupMin_moves (fd minFd : Int) : Moves t w (nativeFdDupMin w t fd minFd).1 := by
  unfold nativeFdDupMin
  split
  · exact .refl
  · split
    · exact .refl
    · exact dupOnto_moves fd _

theorem closeTarget_moves (newfd : Fd) : Moves t w (closeTarget w t newfd) := by
  unfold closeTarget
  split
  · exact nativePipeClose_moves _
  · split
    · exact (inert_nativeSocketClose _).moves
    · split
      · exact .refl
      · exact (inert_atmPosixClose _).moves

theorem nativeFdDup2_moves (fd newfd : Int) : Moves t w (nativeFdDup2 w t fd newfd).1 := by
  unfold nativeFdDup2
  split
  · exact .refl
  · split
    · exact .refl
    · split
      · exact .refl
      · exact (closeTarget_moves _).trans (dupOnto_moves fd _)

theorem nativeFdDup3_moves (fd newfd : Int) (flags : UInt32) :
    Moves t w (nativeFdDup3 w t fd newfd flags).1 := by
  unfold nativeFdDup3
  split
  · exact .refl
  · have dup := nativeFdDup2_moves (w := w) (t := t) fd newfd
    dsimp only
    split
    · exact dup
    · rename_i k _
      have set_ := inert_fdExecSet (w := (nativeFdDup2 w t fd newfd).1) (t := t) (k := k)
        (flags &&& oCloexec ≠ 0)
      split
      · rename_i eq
        rw [eq] at set_
        exact dup.inert set_
      · rename_i eq
        rw [eq] at set_
        exact (dup.inert set_).trans (nativeFdClose_moves _)

theorem nativeFdFcntlDupfd_moves (fd : Int) (arg : Int32) (cloexec : Bool) :
    Moves t w (nativeFdFcntlDupfd w t fd arg cloexec).1 := by
  unfold nativeFdFcntlDupfd
  split
  · exact .refl
  · have dup := nativeFdDupMin_moves (w := w) (t := t) fd arg.toInt
    dsimp only
    split
    · exact dup
    · split
      · exact dup
      · rename_i k _
        have set_ := inert_fdExecSet (w := (nativeFdDupMin w t fd arg.toInt).1) (t := t) (k := k) true
        split
        · rename_i eq
          rw [eq] at set_
          exact dup.inert set_
        · rename_i eq
          rw [eq] at set_
          exact (dup.inert set_).trans (nativeFdClose_moves _)

end AtmKoala.Native
