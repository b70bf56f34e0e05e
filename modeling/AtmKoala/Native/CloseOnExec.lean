import AtmKoala.Native.Exec

/-!
Close-on-exec bits and the descriptors they belong to.

* `Assigns` is what a call does to the bits: some descriptors are given one, the others that
  are open keep theirs. There is a lemma for each call (`nativeFdOpen_assigns`, ...).
* `Noted`: every open descriptor has the bit it was last given. Each call keeps it.
* `run_noted`: every run in which a socket is never opened at a number whose bit was left set.
-/

namespace AtmKoala.Native

open Lib
open Sched (Slot)

variable {w w' w'' w₁ : World} {t u : Slot} {k j : Fd} {a b : Kind} {fd : Int} {v : Bool}
  {K L : Fd → Option Bool}

/-! ### Open descriptors -/

/-- Descriptor `k` of task `t` is open. -/
def Live (w : World) (t : Slot) (k : Fd) : Prop := ∃ a, holds w t k a

theorem Level.live (level : Level w w') (t : Slot) (k : Fd) : Live w' t k ↔ Live w t k :=
  exists_congr (level.holds t k)

theorem Fewer.live (fewer : Fewer w w') (live : Live w' t k) : Live w t k :=
  live.imp fun _ held => (fewer t k _ held).1

theorem Put.live {a : Kind} (put : Put w w' t k a) (live : Live w' u j) :
    Live w u j ∨ u = t ∧ j = k := by
  obtain ⟨b, held⟩ := live
  rcases put.entries u j b held with ⟨rfl, rfl, -⟩ | before
  · exact .inr ⟨rfl, rfl⟩
  · exact .inl ⟨b, before⟩

theorem holds_of_tables (same : w'.tables u = w.tables u) : holds w' u j b ↔ holds w u j b := by
  cases b with
  | file => rw [holds, holds, same]
  | socket n => rw [holds, holds, same]
  | pipe => rw [holds, holds, same]

theorem live_of_tables (same : w'.tables u = w.tables u) : Live w' u j ↔ Live w u j :=
  exists_congr fun _ => holds_of_tables same

theorem ready_of_live (live : Live w t k) : (w.tables t).ready = true := by
  obtain ⟨a, held⟩ := live
  exact holds_ready held

/-- An open descriptor is known to the code as one of its kind. -/
theorem open_of_live (apart : Apart w) (counted : Counted w) (live : Live w t k) :
    (nativePipeIsFd w t k.val || nativeSocketIsFd w t k.val || (fdValid w t k.val).isSome) = true := by
  obtain ⟨a, held⟩ := live
  cases a with
  | file =>
    obtain ⟨b, mapped⟩ := Option.ne_none_iff_exists'.mp held.2
    have valid : (fdValid w t k.val).isSome = true := by
      unfold fdValid
      rw [fdIdx_val]
      dsimp only
      rw [if_pos held.1, mapped]
      rfl
    rw [valid, Bool.or_true]
  | socket n => rw [apart.isFd held, Bool.or_true, Bool.true_or]
  | pipe =>
    obtain ⟨⟨i, e⟩, entered⟩ := entry_of_holds held
    have isPipe : nativePipeIsFd w t k.val = true := by
      rw [nativePipeIsFd, counted.decode entered]
      rfl
    rw [isPipe, Bool.true_or, Bool.true_or]

/-- What is not open is not known. -/
theorem unknown_of_closed (closed : ¬Live w t k) :
    pipeDecode w t k.val = none ∧ nativeSocketIsFd w t k.val = false ∧ fdValid w t k.val = none := by
  refine ⟨?_, ?_, ?_⟩
  · cases decoded : pipeDecode w t k.val with
    | none => rfl
    | some found =>
      obtain ⟨l, i, e⟩ := found
      obtain ⟨idx, ready, -, mapped, -⟩ := pipeDecode_some decoded
      obtain rfl : k = l := Option.some.inj ((fdIdx_val k).symm.trans idx)
      exact absurd ⟨.pipe, ready, by rw [mapped]; nofun⟩ closed
  · by_contra isSocket
    rw [Bool.not_eq_false] at isSocket
    obtain ⟨l, n, idx, held, -⟩ := socket_of_isFd isSocket
    obtain rfl : k = l := Option.some.inj ((fdIdx_val k).symm.trans idx)
    exact closed ⟨_, held⟩
  · cases valid : fdValid w t k.val with
    | none => rfl
    | some found =>
      obtain ⟨l, c⟩ := found
      obtain ⟨idx, named⟩ := backend_of_valid valid
      obtain rfl : k = l := Option.some.inj ((fdIdx_val k).symm.trans idx)
      unfold backend at named
      split at named
      · rename_i ready
        exact absurd ⟨.file, ready, by rw [named]; nofun⟩ closed
      · cases named

/-! ### Closing -/

theorem holds_setPipe_none : holds (w.setPipe t k none) u j b ↔
    holds w u j b ∧ ¬(u = t ∧ j = k ∧ b = .pipe) := by
  by_cases here : u = t
  · subst here
    cases b with
    | file => simp [holds, World.setPipe, mapTable_self]
    | socket n => simp [holds, World.setPipe, mapTable_self]
    | pipe =>
      by_cases same : j = k
      · simp [holds, World.setPipe, mapTable_self, same]
      · simp [holds, World.setPipe, mapTable_self, same]
  · rw [World.setPipe, holds_mapTable_of_ne here]
    exact ⟨fun held => ⟨held, fun all => here all.1⟩, fun both => both.1⟩

theorem holds_setFd_none : holds (w.setFd t k none) u j b ↔
    holds w u j b ∧ ¬(u = t ∧ j = k ∧ b = .file) := by
  by_cases here : u = t
  · subst here
    cases b with
    | pipe => simp [holds, World.setFd, mapTable_self]
    | socket n => simp [holds, World.setFd, mapTable_self]
    | file =>
      by_cases same : j = k
      · simp [holds, World.setFd, mapTable_self, same]
      · simp [holds, World.setFd, mapTable_self, same]
  · rw [World.setFd, holds_mapTable_of_ne here]
    exact ⟨fun held => ⟨held, fun all => here all.1⟩, fun both => both.1⟩

theorem holds_setSocket_none : holds (w.setSocket t k none) u j b ↔
    holds w u j b ∧ ¬(u = t ∧ j = k ∧ ∃ n, b = .socket n) := by
  by_cases here : u = t
  · subst here
    cases b with
    | file => simp [holds, World.setSocket, mapTable_self]
    | pipe => simp [holds, World.setSocket, mapTable_self]
    | socket n =>
      by_cases same : j = k
      · simp [holds, World.setSocket, mapTable_self, same]
      · simp [holds, World.setSocket, mapTable_self, same]
  · rw [World.setSocket, holds_mapTable_of_ne here]
    exact ⟨fun held => ⟨held, fun all => here all.1⟩, fun both => both.1⟩

/-- With entries apart, what is taken away at `k` is all there was. -/
theorem closed_of_kind (apart : Apart w) (held : holds w t k a) {g : Kind → Prop} (is_ : g a)
    (all : ∀ u j b, holds w' u j b ↔ holds w u j b ∧ ¬(u = t ∧ j = k ∧ g b)) :
    ∀ u j b, holds w' u j b ↔ holds w u j b ∧ ¬(u = t ∧ j = k) := by
  intro u j b
  rw [all]
  refine and_congr_right fun held' => not_congr (and_congr_right ?_)
  rintro rfl
  refine ⟨And.left, ?_⟩
  rintro rfl
  exact ⟨rfl, apart.one held held' ▸ is_⟩

/-- **A descriptor is closed**, and no other one. -/
theorem nativeFdClose_holds (apart : Apart w) (counted : Counted w) (held : holds w t k a) :
    ∀ u j b, holds (nativeFdClose w t k.val).1 u j b ↔ holds w u j b ∧ ¬(u = t ∧ j = k) := by
  unfold nativeFdClose
  cases decoded : pipeDecode w t k.val with
  | some found =>
    obtain ⟨l, i, e⟩ := found
    obtain ⟨idx, ready, -, mapped, -⟩ := pipeDecode_some decoded
    obtain rfl : k = l := Option.some.inj ((fdIdx_val k).symm.trans idx)
    have pipe : holds w t k .pipe := ⟨ready, by rw [mapped]; rintro ⟨⟩⟩
    refine closed_of_kind apart pipe (g := (· = .pipe)) rfl fun u j b => ?_
    rw [← holds_setPipe_none]
    refine ((level_setFlags 0).trans (level_fdExecSet false)).holds u j b |>.trans ?_
    unfold nativePipeClose
    rw [decoded]
    exact ((level_mapPipe _).trans (level_wakeOther.trans level_pipeMaybeFree)).holds u j b
  | none =>
    dsimp only
    by_cases isSocket : nativeSocketIsFd w t k.val = true
    · obtain ⟨l, n, idx, socket, -⟩ := socket_of_isFd isSocket
      obtain rfl : k = l := Option.some.inj ((fdIdx_val k).symm.trans idx)
      rw [if_pos isSocket, fdIdx_val]
      refine closed_of_kind apart socket (g := fun b => ∃ n, b = .socket n) ⟨n, rfl⟩ fun u j b => ?_
      rw [← holds_setSocket_none]
      refine ((level_setFlags 0).trans (level_fdExecSet false)).holds u j b |>.trans ?_
      unfold nativeSocketClose
      rw [fdIdx_val]
      dsimp only
      rw [socket.2]
      dsimp only
      rw [if_pos isSocket]
      exact holds_of_tables rfl
    · rw [if_neg isSocket]
      cases valid : fdValid w t k.val with
      | none =>
        have known := open_of_live apart counted ⟨a, held⟩
        rw [nativePipeIsFd, decoded, Bool.not_eq_true .. |>.mp isSocket, valid] at known
        cases known
      | some found =>
        obtain ⟨l, c⟩ := found
        obtain ⟨idx, named⟩ := backend_of_valid valid
        obtain rfl : k = l := Option.some.inj ((fdIdx_val k).symm.trans idx)
        have file : holds w t k .file := by
          unfold backend at named
          split at named
          · rename_i ready
            exact ⟨ready, by rw [named]; rintro ⟨⟩⟩
          · cases named
        refine closed_of_kind apart file (g := (· = .file)) rfl fun u j b => ?_
        rw [← holds_setFd_none]
        exact ((level_setFlags 0).trans ((level_fdExecSet false).trans (level_atmPosixClose c))).holds u j b

theorem nativeFdClose_closed (closed : ¬Live w t k) : (nativeFdClose w t k.val).1 = w := by
  obtain ⟨noPipe, noSocket, noFile⟩ := unknown_of_closed closed
  unfold nativeFdClose
  rw [noPipe]
  dsimp only
  rw [noSocket, if_neg Bool.false_ne_true, noFile]

theorem nativeFdClose_none (none_ : fdIdx fd = none) : (nativeFdClose w t fd).1 = w := by
  unfold nativeFdClose pipeDecode nativeSocketIsFd fdValid
  rw [none_]
  dsimp only
  rw [if_neg Bool.false_ne_true]

/-! ### Bits that are given -/

def nothing : Fd → Option Bool := fun _ => none

/-- A bit for the descriptor a call returns, if it returns one. -/
def opened (result : Option Fd) (value : Bool) : Fd → Option Bool := fun j =>
  if result = some j then some value else none

/-- Task `t` gets descriptors with the bits `K`; the others that are open keep theirs. -/
structure Assigns (t : Slot) (K : Fd → Option Bool) (w w' : World) : Prop where
  recorded : Recorded w'
  live : ∀ {u j}, Live w' u j → Live w u j ∨ u = t ∧ K j ≠ none
  given : ∀ {j value}, K j = some value → Live w' t j → fdExecGet w' t j = value
  kept : ∀ {u j}, (u = t → K j = none) → Live w' u j → fdExecGet w' u j = fdExecGet w u j

theorem opened_self (k : Fd) (value : Bool) : opened (some k) value k = some value := if_pos rfl

theorem opened_of_ne (ne : j ≠ k) (value : Bool) : opened (some k) value j = none :=
  if_neg fun same => ne (Option.some.inj same).symm

namespace Assigns

theorem of_fewer (recorded : Recorded w) (quiet : Quiet w w')
    (live : ∀ u j, Live w' u j → Live w u j) : Assigns t nothing w w' :=
  ⟨recorded.quiet quiet, fun there => .inl (live _ _ there), nofun, fun _ _ => quiet.bit _ _⟩

theorem refl (recorded : Recorded w) : Assigns t nothing w w :=
  of_fewer recorded (.refl w) fun _ _ => id

/-- One call after the other. -/
theorem trans (first : Assigns t K w w') (second : Assigns t L w' w'') :
    Assigns t (fun j => (L j).or (K j)) w w'' := by
  constructor
  case recorded => exact second.recorded
  case live =>
    intro u j live
    rcases second.live live with before | ⟨rfl, some_⟩
    · rcases first.live before with old | ⟨rfl, some_⟩
      · exact .inl old
      · refine .inr ⟨rfl, fun none_ => some_ (Option.or_eq_none_iff.mp none_).2⟩
    · exact .inr ⟨rfl, fun none_ => some_ (Option.or_eq_none_iff.mp none_).1⟩
  case given =>
    intro j value given live
    cases later : L j with
    | some value' =>
      rw [later, Option.some_or] at given
      exact (second.given later live).trans (Option.some.inj given)
    | none =>
      rw [later, Option.none_or] at given
      have before := (second.live live).resolve_right fun both => both.2 later
      exact (second.kept (fun _ => later) live).trans (first.given given before)
  case kept =>
    intro u j none_ live
    have none_' : u = t → L j = none ∧ K j = none := fun here => Option.or_eq_none_iff.mp (none_ here)
    have before := (second.live live).resolve_right fun both => both.2 (none_' both.1).1
    exact (second.kept (fun here => (none_' here).1) live).trans
      (first.kept (fun here => (none_' here).2) before)

theorem then_ (first : Assigns t K w w') (second : Assigns t nothing w' w'') : Assigns t K w w'' :=
  first.trans second

theorem after (first : Assigns t nothing w w') (second : Assigns t L w' w'') : Assigns t L w w'' := by
  have both := first.trans second
  have same : (fun j => (L j).or (nothing j)) = L := funext fun j => Option.or_none
  rwa [same] at both

/-- A descriptor is put in place, and then its bit. -/
theorem set (recorded : Recorded w) (quiet : Quiet w w₁)
    (live : ∀ {u j}, Live w₁ u j → Live w u j ∨ u = t ∧ j = k)
    (able : execEntry w t ≠ none ∨ v = true) :
    (fdExecSet w₁ t k v).2 = true ∧
      Assigns t (opened (some k) v) w (fdExecSet w₁ t k v).1 := by
  have entry : execEntry w₁ t = execEntry w t := by rw [execEntry, quiet.execMeta, execEntry]
  obtain ⟨done, recorded', bits⟩ := (recorded.quiet quiet).set (t := t) k (entry ▸ able)
  have same := level_fdExecSet (w := w₁) (t := t) (k := k) v
  refine ⟨done, recorded', fun {u j} there => ?_, fun {j v'} given _ => ?_, fun {u j} none_ _ => ?_⟩
  · rcases live ((same.live u j).mp there) with before | ⟨rfl, rfl⟩
    · exact .inl before
    · exact .inr ⟨rfl, by rw [opened_self]; rintro ⟨⟩⟩
  · rw [bits]
    by_cases here : j = k
    · rw [here, opened_self] at given
      rw [if_pos ⟨rfl, here⟩]
      exact Option.some.inj given
    · rw [opened_of_ne here] at given
      cases given
  · rw [bits, if_neg, quiet.bit]
    rintro ⟨rfl, rfl⟩
    rw [opened_self] at none_
    cases none_ rfl

/-- A descriptor is put in place where the bit is clear. -/
theorem unmarked (recorded : Recorded w) (quiet : Quiet w w')
    (live : ∀ {u j}, Live w' u j → Live w u j ∨ u = t ∧ j = k) (clear : fdExecGet w t k = false) :
    Assigns t (opened (some k) false) w w' := by
  refine ⟨recorded.quiet quiet, fun {u j} there => ?_, fun {j v} given _ => ?_, fun _ _ => quiet.bit _ _⟩
  · rcases live there with before | ⟨rfl, rfl⟩
    · exact .inl before
    · exact .inr ⟨rfl, by rw [opened_self]; nofun⟩
  · rw [quiet.bit]
    by_cases here : j = k
    · rw [here, opened_self] at given
      rw [here, clear]
      exact Option.some.inj given
    · rw [opened_of_ne here] at given
      cases given

/-- The bit of a descriptor that is no longer open is cleared. -/
theorem unset (recorded : Recorded w) (quiet : Quiet w w₁) (live : ∀ u j, Live w₁ u j → Live w u j)
    (closed : ¬Live w₁ t k) (able : execEntry w t ≠ none) :
    Assigns t nothing w (fdExecSet w₁ t k false).1 := by
  have entry : execEntry w₁ t = execEntry w t := by rw [execEntry, quiet.execMeta, execEntry]
  obtain ⟨-, recorded', bits⟩ := (recorded.quiet quiet).set (t := t) k (.inl (entry ▸ able))
  have same := level_fdExecSet (w := w₁) (t := t) (k := k) false
  refine ⟨recorded', fun {u j} there => .inl (live u j ((same.live u j).mp there)), by rintro j value ⟨⟩,
    fun {u j} _ there => ?_⟩
  rw [bits, if_neg, quiet.bit]
  rintro ⟨rfl, rfl⟩
  exact closed ((same.live u j).mp there)

end Assigns

/-! ### Closing -/

theorem nativeFdClose_assigns (recorded : Recorded w) (apart : Apart w) (counted : Counted w) (fd : Int) :
    Assigns t nothing w (nativeFdClose w t fd).1 := by
  cases idx : fdIdx fd with
  | none =>
    rw [nativeFdClose_none idx]
    exact .refl recorded
  | some k =>
    obtain rfl := fdIdx_of_idx idx
    by_cases live : Live w t k
    · obtain ⟨a, held⟩ := live
      have all := nativeFdClose_holds apart counted held
      have able := recorded.ready t (holds_ready held)
      have fewer := nativeFdClose_fewer (t := t) apart k.val
      have closed : ¬Live (nativeFdClose w t k.val).1 t k := by
        rintro ⟨b, there⟩
        exact ((all t k b).mp there).2 ⟨rfl, rfl⟩
      revert closed fewer
      unfold nativeFdClose
      cases decoded : pipeDecode w t k.val with
      | some found =>
        obtain ⟨l, i, e⟩ := found
        obtain rfl : k = l := Option.some.inj ((fdIdx_val k).symm.trans (pipeDecode_some decoded).1)
        intro fewer closed
        have same := level_fdExecSet (w := (nativePipeClose w t k.val).1.setFlags t k 0) (t := t) (k := k) false
        exact .unset recorded ((quiet_nativePipeClose _).trans (quiet_setFlags 0))
          (fun u j there => fewer.live ((same.live u j).mpr there))
          (fun there => closed ((same.live t k).mpr there)) able
      | none =>
        dsimp only
        rw [fdIdx_val]
        dsimp only
        split
        · intro fewer closed
          have same := level_fdExecSet (w := (nativeSocketClose w t k.val).1.setFlags t k 0) (t := t) (k := k) false
          exact .unset recorded ((quiet_nativeSocketClose _).trans (quiet_setFlags 0))
            (fun u j there => fewer.live ((same.live u j).mpr there))
            (fun there => closed ((same.live t k).mpr there)) able
        · cases valid : fdValid w t k.val with
          | none => exact fun _ _ => .refl recorded
          | some found =>
            obtain ⟨l, c⟩ := found
            obtain rfl : k = l := Option.some.inj ((fdIdx_val k).symm.trans (backend_of_valid valid).1)
            intro fewer closed
            have same := (level_fdExecSet (w := (w.setFd t k none).setFlags t k 0) (t := t) (k := k) false).trans
              (level_atmPosixClose c)
            have unset : Assigns t nothing w (fdExecSet ((w.setFd t k none).setFlags t k 0) t k false).1 :=
              .unset recorded ((quiet_setFd none).trans (quiet_setFlags 0))
                (fun u j there => fewer.live ((same.live u j).mpr there))
                (fun there => closed ((same.live t k).mpr there)) able
            exact unset.then_ (.of_fewer unset.recorded ⟨rfl, fun _ => rfl⟩ fun u j => (live_of_tables rfl).mp)
    · rw [nativeFdClose_closed live]
      exact .refl recorded

/-- What descriptors and bits rest on. -/
structure Tidy (w : World) : Prop where
  counted : Counted w
  apart : Apart w
  recorded : Recorded w

/-- **Closing on exec**, one descriptor after the other. -/
theorem foldl_close (tidy : Tidy w) (t : Slot) (ks : List Fd) :
    let w' := ks.foldl (fun w k => if fdExecGet w t k then (nativeFdClose w t k.val).1 else w) w
    Assigns t nothing w w' ∧
      ∀ u j b, holds w' u j b ↔ holds w u j b ∧ ¬(u = t ∧ j ∈ ks ∧ fdExecGet w t j = true) := by
  induction ks generalizing w with
  | nil => exact ⟨.refl tidy.recorded, fun u j b => by simp⟩
  | cons k ks ih =>
    obtain ⟨counted, apart, recorded⟩ := tidy
    rw [List.foldl_cons]
    -- the first round
    have one : ∀ w₁, w₁ = (if fdExecGet w t k then (nativeFdClose w t k.val).1 else w) →
        Tidy w₁ ∧ Assigns t nothing w w₁ ∧
          ∀ u j b, holds w₁ u j b ↔ holds w u j b ∧ ¬(u = t ∧ j = k ∧ fdExecGet w t j = true) := by
      rintro w₁ rfl
      by_cases bit : fdExecGet w t k = true
      · rw [if_pos bit]
        have assigns := nativeFdClose_assigns (t := t) recorded apart counted k.val
        refine ⟨⟨counted.moves (nativeFdClose_moves _), apart.fewer (nativeFdClose_fewer apart _),
          assigns.recorded⟩, assigns, fun u j b => ?_⟩
        by_cases live : Live w t k
        · obtain ⟨a, held⟩ := live
          rw [nativeFdClose_holds apart counted held]
          refine and_congr_right fun _ => not_congr (and_congr_right ?_)
          rintro rfl
          exact ⟨fun same => ⟨same, same ▸ bit⟩, And.left⟩
        · rw [nativeFdClose_closed live]
          refine ⟨fun held => ⟨held, ?_⟩, And.left⟩
          rintro ⟨rfl, rfl, -⟩
          exact live ⟨b, held⟩
      · rw [if_neg bit]
        refine ⟨⟨counted, apart, recorded⟩, .refl recorded, fun u j b => ⟨fun held => ⟨held, ?_⟩, And.left⟩⟩
        rintro ⟨rfl, rfl, set⟩
        exact bit set
    obtain ⟨tidy₁, assigns, first⟩ := one _ rfl
    obtain ⟨assigns', rest⟩ := ih tidy₁
    refine ⟨assigns.then_ assigns', fun u j b => ?_⟩
    rw [rest, first, and_assoc]
    refine and_congr_right fun held => ?_
    by_cases here : u = t
    · subst here
      by_cases head : j = k
      · subst head
        by_cases bit : fdExecGet w u j = true
        · simp [bit]
        · have live : Live (if fdExecGet w u j then (nativeFdClose w u j.val).1 else w) u j := by
            rw [if_neg bit]
            exact ⟨b, held⟩
          rw [assigns.kept (fun _ => rfl) live]
          simp [bit]
      · by_cases live : Live (if fdExecGet w u k then (nativeFdClose w u k.val).1 else w) u j
        · rw [assigns.kept (fun _ => rfl) live]
          simp [head]
        · exact absurd ⟨b, (first u j b).mpr ⟨held, fun all => head all.2.1⟩⟩ live
    · simp [here]

/-! ### Opening -/

theorem nativeFdSlot_ready (slot : nativeFdSlot w t = some k) : (w.tables t).ready = true := by
  unfold nativeFdSlot at slot
  split at slot
  · cases slot
  · rename_i ready
    simpa using ready

theorem nativeFdOpen_assigns (recorded : Recorded w) (ok : Bool) (flags : UInt32) :
    Assigns t (opened (fdIdx (nativeFdOpen w t ok flags).2) (flags &&& oCloexec ≠ 0)) w
      (nativeFdOpen w t ok flags).1 := by
  unfold nativeFdOpen
  split
  · exact .refl recorded
  · rename_i k slot
    have able := recorded.ready t (nativeFdSlot_ready slot)
    have level := level_atmPosixOpen (w := w) ok
    have quiet := quiet_atmPosixOpen (w := w) ok
    split
    · rename_i eq
      rw [eq] at level quiet
      exact .of_fewer recorded quiet fun u j => (level.live u j).mp
    · rename_i w₁ b eq
      rw [eq] at level quiet
      have put := (Put.after level (put_setFd (t := t) (k := k) (some b))).before
        (level_setFlags (t := t) (k := k) (flags &&& (oAccmode ||| oNonblock)))
      obtain ⟨done, assigns⟩ := Assigns.set (v := flags &&& oCloexec ≠ 0) recorded
        ((quiet.trans (quiet_setFd (t := t) (k := k) (some b))).trans (quiet_setFlags _)) put.live (.inl able)
      dsimp only
      split
      · rename_i eq'
        rw [eq'] at assigns
        rw [fdIdx_val]
        exact assigns
      · rename_i eq'
        rw [eq'] at done
        cases done

theorem nativePipeCreate_live {readFd writeFd : Fd}
    (made : (nativePipeCreate w t).2 = some (readFd, writeFd)) (live : Live (nativePipeCreate w t).1 u j) :
    Live w u j ∨ u = t ∧ (j = readFd ∨ j = writeFd) := by
  unfold nativePipeCreate at made live
  split at made
  · cases made
  · rename_i ready
    rw [if_neg ready] at live
    split at made
    · cases made
    · rename_i readFd' found
      rw [found] at live
      dsimp only at live
      split at made
      · cases made
      · rename_i writeFd' found'
        rw [found'] at live
        dsimp only at live
        split at made
        · cases made
        · rename_i i unused
          rw [unused] at live
          cases made
          rcases (put_setPipe (some (i, .write))).live live with before | ⟨rfl, rfl⟩
          · rcases (Put.after (level_mapPipe _) (put_setPipe (some (i, .read)))).live before with
              old | ⟨rfl, rfl⟩
            · exact .inl old
            · exact .inr ⟨rfl, .inl rfl⟩
          · exact .inr ⟨rfl, .inr rfl⟩

/-- A bit for both ends of a pipe that is created. -/
def openedPair (result : Option (Fd × Fd)) (value : Bool) : Fd → Option Bool := fun j =>
  if result.any fun ends => decide (j = ends.1 ∨ j = ends.2) then some value else none

theorem nativePipeCreate_ready (made : (nativePipeCreate w t).2 ≠ none) : (w.tables t).ready = true := by
  unfold nativePipeCreate at made
  split at made
  · exact absurd rfl made
  · rename_i ready
    simpa using ready

theorem nativeFdPipe2_assigns (recorded : Recorded w) (flags : UInt32) :
    Assigns t (openedPair (if flags &&& ~~~(oCloexec ||| oNonblock) ≠ 0 then none
      else (nativePipeCreate w t).2) (flags &&& oCloexec ≠ 0)) w (nativeFdPipe2 w t flags).1 := by
  unfold nativeFdPipe2
  split
  · exact .refl recorded
  · have quiet := quiet_nativePipeCreate (w := w) (t := t)
    rcases nativePipeCreate_made (w := w) (t := t) with same | ⟨k, k', i, result, -⟩
    · rw [same]
      exact .refl recorded
    · have live := fun {u j} => nativePipeCreate_live (u := u) (j := j) result
      have ready := nativePipeCreate_ready (by rw [result]; rintro ⟨⟩)
      have able := recorded.ready t ready
      rw [show nativePipeCreate w t = ((nativePipeCreate w t).1, some (k, k')) from Prod.ext rfl result]
      generalize (nativePipeCreate w t).1 = w₁ at quiet live
      dsimp only
      generalize decide (flags &&& oCloexec ≠ 0) = value
      have marked : Quiet w ((w₁.setFlags t k (flags &&& oNonblock)).setFlags t k' (1 ||| (flags &&& oNonblock))) :=
        (quiet.trans (quiet_setFlags _)).trans (quiet_setFlags _)
      have level : Level w₁ ((w₁.setFlags t k (flags &&& oNonblock)).setFlags t k'
          (1 ||| (flags &&& oNonblock))) := (level_setFlags _).trans (level_setFlags _)
      generalize (w₁.setFlags t k (flags &&& oNonblock)).setFlags t k' (1 ||| (flags &&& oNonblock)) = w₂
        at marked level
      have entry : execEntry w₂ t ≠ none := by rwa [execEntry, marked.execMeta]
      obtain ⟨done, recorded₃, bits⟩ := (recorded.quiet marked).set (t := t) (v := value) k (.inl entry)
      have level₃ := level_fdExecSet (w := w₂) (t := t) (k := k) value
      rw [show fdExecSet w₂ t k value = ((fdExecSet w₂ t k value).1, true) from Prod.ext rfl done]
      dsimp only
      generalize (fdExecSet w₂ t k value).1 = w₃ at recorded₃ bits level₃
      have ready₃ : (w₃.tables t).ready = true := by
        rw [level₃.ready, marked.ready]
        exact ready
      obtain ⟨done', recorded₄, bits'⟩ := recorded₃.set (t := t) (v := value) k'
        (.inl (recorded₃.ready t ready₃))
      have level₄ := level_fdExecSet (w := w₃) (t := t) (k := k') value
      rw [show fdExecSet w₃ t k' value = ((fdExecSet w₃ t k' value).1, true) from Prod.ext rfl done']
      have alive : ∀ u j, Live (fdExecSet w₃ t k' value).1 u j ↔ Live w₁ u j := fun u j =>
        (level₄.live u j).trans ((level₃.live u j).trans (level.live u j))
      have any_ : ∀ j, (some (k, k')).any (fun ends => decide (j = ends.1 ∨ j = ends.2)) =
          decide (j = k ∨ j = k') := fun _ => rfl
      refine ⟨recorded₄, fun {u j} there => ?_, fun {j v} given _ => ?_, fun {u j} none_ _ => ?_⟩
      · rcases live ((alive u j).mp there) with old | ⟨here, new⟩
        · exact .inl old
        · refine .inr ⟨here, ?_⟩
          rw [openedPair, any_, if_pos (decide_eq_true new)]
          rintro ⟨⟩
      · unfold openedPair at given
        rw [any_] at given
        split at given
        · rename_i new
          obtain rfl := Option.some.inj given
          rw [bits', bits]
          rcases of_decide_eq_true new with rfl | rfl
          · simp
          · simp
        · cases given
      · rw [bits', bits, ← marked.bit]
        have other : ¬(u = t ∧ (j = k ∨ j = k')) := by
          rintro ⟨here, new⟩
          have absent := none_ here
          rw [openedPair, any_, if_pos (decide_eq_true new)] at absent
          cases absent
        rw [if_neg fun both => other ⟨both.1, .inr both.2⟩, if_neg fun both => other ⟨both.1, .inl both.2⟩]

theorem nativeSocketOpen_assigns (recorded : Recorded w)
    (clear : ∀ k, (nativeSocketOpen w t).2 = some k → fdExecGet w t k = false) :
    Assigns t (opened (nativeSocketOpen w t).2 false) w (nativeSocketOpen w t).1 := by
  have quiet := quiet_nativeSocketOpen (w := w) (t := t)
  revert clear quiet
  unfold nativeSocketOpen
  split
  · exact fun _ _ => .refl recorded
  · split
    · exact fun _ _ => .refl recorded
    · rename_i k found
      split
      · exact fun _ _ => .refl recorded
      · rename_i n unused
        intro clear quiet
        have nobody := List.find?_some unused
        rw [Option.isNone_iff_eq_none] at nobody
        have put := put_openSocket (t := t) nobody (free_of_pipeFdFree (List.find?_some found)).1
        exact .unmarked recorded quiet put.live (clear k rfl)

theorem nativeSocketAccept_assigns (recorded : Recorded w) (fd : Int) (listening established : Bool)
    (clear : ∀ k, fdIdx (nativeSocketAccept w t fd listening established).2 = some k →
      fdExecGet w t k = false) :
    Assigns t (opened (fdIdx (nativeSocketAccept w t fd listening established).2) false) w
      (nativeSocketAccept w t fd listening established).1 := by
  have quiet := quiet_nativeSocketAccept (w := w) (t := t) fd listening established
  rcases nativeSocketAccept_cases (w := w) (t := t) fd listening established with
    ⟨level, failed⟩ | ⟨k, n, -, -, -, nobody, low, -, -, -, done⟩
  · rw [failed]
    exact .of_fewer recorded quiet fun u j => (level.live u j).mp
  · rw [done, fdIdx_val] at clear ⊢
    rw [done] at quiet
    have put := put_openSocket (t := t) nobody low
    exact .unmarked recorded quiet put.live (clear k rfl)

/-! ### Duplicating -/

theorem nativePipeDup_cases (fd : Int) (newfd : Fd) :
    nativePipeDup w t fd newfd = (w, -1) ∨
      Put w (nativePipeDup w t fd newfd).1 t newfd .pipe ∧
        (nativePipeDup w t fd newfd).2 = newfd.val := by
  unfold nativePipeDup
  split
  · exact .inl rfl
  · split
    · exact .inl rfl
    · exact .inr ⟨.after (level_mapPipe _) (put_setPipe _), rfl⟩

theorem fdValid_ready {c : Fin 64} (valid : fdValid w t fd = some (k, c)) :
    (w.tables t).ready = true := by
  have named := (backend_of_valid valid).2
  unfold backend at named
  split at named
  · assumption
  · cases named

theorem dupOnto_assigns (recorded : Recorded w) (fd : Int) (newfd : Fd) :
    Assigns t (opened (fdIdx (dupOnto w t fd newfd).2) false) w (dupOnto w t fd newfd).1 := by
  unfold dupOnto
  split
  · rename_i k i e decoded
    have able := recorded.ready t (pipeDecode_some decoded).2.1
    have quiet := quiet_nativePipeDup (w := w) (t := t) fd newfd
    rcases nativePipeDup_cases (w := w) (t := t) fd newfd with failed | ⟨put, made⟩
    · rw [failed]
      exact .refl recorded
    · dsimp only
      have nonneg : ¬(nativePipeDup w t fd newfd).2 < 0 := by
        rw [made]
        omega
      rw [if_neg nonneg, made, fdIdx_val]
      exact (Assigns.set recorded (quiet.trans (quiet_setFlags _))
        (put.before (level_setFlags _)).live (.inl able)).2
  · split
    · exact .refl recorded
    · rename_i k b valid
      have able := recorded.ready t (fdValid_ready valid)
      have level := level_atmPosixOpen (w := w) (w.vfsUsed b)
      have quiet := quiet_atmPosixDup (w := w) b
      unfold atmPosixDup at quiet ⊢
      split
      · rename_i eq
        rw [eq] at level quiet
        exact .of_fewer recorded quiet fun u j => (level.live u j).mp
      · rename_i w₁ b' eq
        rw [eq] at level quiet
        dsimp only
        rw [fdIdx_val]
        have put := (Put.after level (put_setFd (t := t) (k := newfd) (some b'))).before
          (level_setFlags (t := t) (k := newfd) ((w₁.tables t).flags k))
        exact (Assigns.set recorded ((quiet.trans (quiet_setFd _)).trans (quiet_setFlags _)) put.live
          (.inl able)).2

theorem nativeFdDupMin_assigns (recorded : Recorded w) (fd minFd : Int) :
    Assigns t (opened (fdIdx (nativeFdDupMin w t fd minFd).2) false) w (nativeFdDupMin w t fd minFd).1 := by
  unfold nativeFdDupMin
  split
  · exact .refl recorded
  · split
    · exact .refl recorded
    · exact dupOnto_assigns recorded _ _

/-- `dup2` of a descriptor onto itself gives it no bit. -/
theorem nativeFdDup2_assigns (recorded : Recorded w) (apart : Apart w) (fd newfd : Int) :
    Assigns t (if fd = newfd then nothing else opened (fdIdx (nativeFdDup2 w t fd newfd).2) false) w
      (nativeFdDup2 w t fd newfd).1 := by
  have failed : Assigns t (if fd = newfd then nothing else opened (fdIdx (-1)) false) w w := by
    split
    · exact .refl recorded
    · exact .refl recorded
  unfold nativeFdDup2
  cases idx : fdIdx newfd with
  | none => exact failed
  | some k =>
    dsimp only
    by_cases same : fd = newfd ∧
        (nativePipeIsFd w t fd || nativeSocketIsFd w t fd || (fdValid w t fd).isSome) = true
    · rw [if_pos same, if_pos same.1]
      exact .refl recorded
    · rw [if_neg same]
      by_cases refused : dupable w t fd = false
      · rw [if_pos refused]
        exact failed
      · rw [if_neg refused]
        have other : fd ≠ newfd := by
          intro eq
          refine same ⟨eq, ?_⟩
          unfold dupable at refused
          simp only [Bool.and_eq_false_iff, not_or, Bool.not_eq_false] at refused
          rw [Bool.or_right_comm, refused.1, Bool.true_or]
        rw [if_neg other]
        have cleared : Assigns t nothing w (closeTarget w t k) :=
          .of_fewer recorded (quiet_closeTarget k) fun u j => (closeTarget_fewer apart k).live
        exact cleared.after (dupOnto_assigns cleared.recorded fd k)

theorem opened_or (result : Option Fd) (value : Bool) :
    (fun j => (opened result value j).or (opened result false j)) = opened result value := by
  funext j
  unfold opened
  split
  · rfl
  · rfl

/-- A task without a table duplicates nothing. -/
theorem ready_of_dup2 (made : fdIdx (nativeFdDup2 w t fd k.val).2 ≠ none) : (w.tables t).ready = true := by
  by_contra unready
  rw [Bool.not_eq_true] at unready
  have noPipe : ∀ fd, pipeDecode w t fd = none := by
    intro fd
    cases decoded : pipeDecode w t fd with
    | none => rfl
    | some found => exact absurd (pipeDecode_some decoded).2.1 (by rw [unready]; nofun)
  have noFile : ∀ fd, fdValid w t fd = none := by
    intro fd
    cases valid : fdValid w t fd with
    | none => rfl
    | some found => exact absurd (fdValid_ready valid) (by rw [unready]; nofun)
  have noSocket : ∀ fd, nativeSocketIsFd w t fd = false := by
    intro fd
    by_contra isSocket
    rw [Bool.not_eq_false] at isSocket
    obtain ⟨l, n, -, held, -⟩ := socket_of_isFd isSocket
    exact absurd held.1 (by rw [unready]; nofun)
  refine made ?_
  unfold nativeFdDup2
  rw [fdIdx_val]
  dsimp only
  unfold dupable nativePipeIsFd
  rw [noPipe, noFile, noSocket, if_neg fun both => absurd both.2 (by decide)]
  rfl

theorem dupOnto_ready (fd : Int) (newfd : Fd) :
    ((dupOnto w t fd newfd).1.tables u).ready = (w.tables u).ready := by
  unfold dupOnto
  split
  · have quiet := quiet_nativePipeDup (w := w) (t := t) fd newfd
    dsimp only
    split
    · exact quiet.ready u
    · rw [(level_fdExecSet false).ready, (quiet_setFlags _).ready, quiet.ready]
  · split
    · rfl
    · rename_i k b valid
      have quiet := quiet_atmPosixDup (w := w) b
      split
      · rename_i eq
        rw [eq] at quiet
        exact quiet.ready u
      · rename_i w₁ b' eq
        rw [eq] at quiet
        dsimp only
        rw [(level_fdExecSet false).ready, (quiet_setFlags _).ready, (quiet_setFd _).ready, quiet.ready]

theorem nativeFdDup2_ready (fd newfd : Int) :
    ((nativeFdDup2 w t fd newfd).1.tables u).ready = (w.tables u).ready := by
  unfold nativeFdDup2
  split
  · rfl
  · split
    · rfl
    · split
      · rfl
      · rw [dupOnto_ready, (quiet_closeTarget _).ready]

theorem nativeFdDup3_assigns (recorded : Recorded w) (apart : Apart w) (fd newfd : Int)
    (flags : UInt32) :
    Assigns t (opened (fdIdx (nativeFdDup3 w t fd newfd flags).2) (flags &&& oCloexec ≠ 0)) w
      (nativeFdDup3 w t fd newfd flags).1 := by
  unfold nativeFdDup3
  by_cases refused : fd = newfd ∨ flags &&& ~~~oCloexec ≠ 0
  · rw [if_pos refused]
    exact .refl recorded
  · rw [if_neg refused]
    have dup := nativeFdDup2_assigns (t := t) recorded apart fd newfd
    rw [if_neg fun eq => refused (.inl eq)] at dup
    dsimp only
    generalize decide (flags &&& oCloexec ≠ 0) = value
    cases out : fdIdx (nativeFdDup2 w t fd newfd).2 with
    | none =>
      rw [out] at dup
      dsimp only
      rw [out]
      exact dup
    | some k =>
      rw [out] at dup
      dsimp only
      have ready : (w.tables t).ready = true := by
        cases idx : fdIdx newfd with
        | none =>
          unfold nativeFdDup2 at out
          rw [idx] at out
          cases out
        | some l =>
          obtain rfl := fdIdx_of_idx idx
          exact ready_of_dup2 (by rw [out]; nofun)
      have ready' : ((nativeFdDup2 w t fd newfd).1.tables t).ready = true := by
        rw [nativeFdDup2_ready]
        exact ready
      obtain ⟨done, assigns⟩ := Assigns.set (k := k) (v := value) dup.recorded (.refl _)
        (fun live => .inl live) (.inl (dup.recorded.ready t ready'))
      split
      · rename_i eq
        rw [eq] at assigns
        have both := dup.trans assigns
        rw [opened_or] at both
        dsimp only
        rw [out]
        exact both
      · rename_i eq
        rw [eq] at done
        cases done

/-- A task without a table has nothing to duplicate. -/
theorem unknown_of_unready (unready : (w.tables t).ready = false) (fd : Int) :
    pipeDecode w t fd = none ∧ fdValid w t fd = none ∧ nativeSocketIsFd w t fd = false := by
  refine ⟨?_, ?_, ?_⟩
  · cases decoded : pipeDecode w t fd with
    | none => rfl
    | some found => exact absurd (pipeDecode_some decoded).2.1 (by rw [unready]; nofun)
  · cases valid : fdValid w t fd with
    | none => rfl
    | some found => exact absurd (fdValid_ready valid) (by rw [unready]; nofun)
  · by_contra isSocket
    rw [Bool.not_eq_false] at isSocket
    obtain ⟨l, n, -, held, -⟩ := socket_of_isFd isSocket
    exact absurd held.1 (by rw [unready]; nofun)

theorem nativeFdFcntlDupfd_assigns (recorded : Recorded w) (fd : Int) (arg : Int32) (cloexec : Bool) :
    Assigns t (opened (fdIdx (nativeFdFcntlDupfd w t fd arg cloexec).2) cloexec) w
      (nativeFdFcntlDupfd w t fd arg cloexec).1 := by
  unfold nativeFdFcntlDupfd
  split
  · exact .refl recorded
  · have dup := nativeFdDupMin_assigns (t := t) recorded fd arg.toInt
    dsimp only
    cases cloexec with
    | false => exact dup
    | true =>
      rw [if_neg (by decide)]
      cases out : fdIdx (nativeFdDupMin w t fd arg.toInt).2 with
      | none =>
        rw [out] at dup
        exact dup
      | some k =>
        rw [out] at dup
        obtain ⟨done, assigns⟩ := Assigns.set (k := k) (v := true) dup.recorded (.refl _)
          (fun live => .inl live) (.inr rfl)
        dsimp only
        split
        · rename_i eq
          rw [eq] at assigns
          have both := dup.trans assigns
          rw [opened_or] at both
          rw [out]
          exact both
        · rename_i eq
          rw [eq] at done
          cases done

/-! ### Tables -/

theorem fdExecGet_mapTable (f : Table → Table) (u : Slot) (j : Fd) :
    fdExecGet (w.mapTable t f) u j = fdExecGet w u j :=
  fdExecGet_congr (show (w.mapTable t f).execMeta = w.execMeta from rfl) u j

theorem quiet_nativeSocketTaskInit : Quiet w (nativeSocketTaskInit w t) := quiet_mapTable fun _ => rfl

theorem quiet_nativePipeTaskInit : Quiet w (nativePipeTaskInit w t) := quiet_mapTable fun _ => rfl

theorem quiet_nativeDirTaskInit : Quiet w (nativeDirTaskInit w t) := quiet_mapTable fun _ => rfl

theorem freshTable_tables_of_ne (ne : u ≠ t) : (freshTable w t).tables u = w.tables u := by
  unfold freshTable nativeDirTaskInit nativePipeTaskInit nativeSocketTaskInit
  have reset : ∀ w, (fdExecReset w t).tables = w.tables := fun w => by
    obtain ⟨f, same⟩ := fdExecReset_changes w t
    rw [same]
  rw [mapTable_of_ne _ ne, mapTable_of_ne _ ne, mapTable_of_ne _ ne, reset, mapTable_of_ne _ ne]

/-- A table is set up with all bits clear. -/
theorem freshTable_recorded (recorded : Recorded w) (t : Slot) :
    Recorded (freshTable w t) ∧ execEntry (freshTable w t) t ≠ none ∧
      ∀ u j, fdExecGet (freshTable w t) u j = if u = t then false else fdExecGet w u j := by
  set w₁ := w.mapTable t fun table => { table with fdMap := fun _ => none, flags := fun _ => 0 }
  have quiet : Quiet w w₁ := quiet_mapTable fun _ => rfl
  obtain ⟨recorded', entry, bits⟩ := (recorded.quiet quiet).reset t
  have maps : Quiet (fdExecReset w₁ t) (freshTable w t) :=
    (quiet_nativeSocketTaskInit.trans quiet_nativePipeTaskInit).trans quiet_nativeDirTaskInit
  refine ⟨recorded'.quiet maps, ?_, fun u j => ?_⟩
  · rw [execEntry, maps.execMeta]
    exact entry
  · rw [maps.bit, bits, quiet.bit]

theorem Recorded.mapTable (recorded : Recorded w) (entry : execEntry w t ≠ none) (f : Table → Table) :
    Recorded (w.mapTable t f) := by
  refine ⟨recorded.distinct, fun u ready => ?_⟩
  by_cases here : u = t
  · exact here ▸ entry
  · rw [mapTable_of_ne f here] at ready
    exact recorded.ready u ready

/-- The consoles of a new table are opened. -/
theorem openTtys_tables (tty : Fin 3 → Bool) (ks : List (Fin 3)) :
    let w' := ks.foldl (fun (w : World) (k : Fin 3) =>
      ((atmPosixOpen w (tty k)).1.setFd t (Fin.castLE (by decide) k) (atmPosixOpen w (tty k)).2).setFlags t
        (Fin.castLE (by decide) k) (if k = 0 then 0 else 1)) w
    Quiet w w' ∧ (∀ u, u ≠ t → w'.tables u = w.tables u) ∧ (w'.tables t).pipeMap = (w.tables t).pipeMap := by
  refine List.foldlRecOn (motive := fun w' => Quiet w w' ∧ (∀ u, u ≠ t → w'.tables u = w.tables u) ∧
    (w'.tables t).pipeMap = (w.tables t).pipeMap) _ _ ⟨.refl w, fun _ _ => rfl, rfl⟩ ?_
  intro w' ⟨quiet, tables, pipeMap⟩ k _
  have opened : (atmPosixOpen w' (tty k)).1.tables = w'.tables := by
    unfold atmPosixOpen
    split
    · rfl
    · split
      · rfl
      · rfl
  refine ⟨((quiet.trans (quiet_atmPosixOpen _)).trans (quiet_setFd _)).trans (quiet_setFlags _),
    fun u ne => ?_, ?_⟩
  · rw [World.setFlags, mapTable_of_ne _ ne, World.setFd, mapTable_of_ne _ ne, opened, tables u ne]
  · rw [World.setFlags, mapTable_self, World.setFd, mapTable_self, opened, ← pipeMap]

theorem nativeFdTaskInit_tables (tty : Fin 3 → Bool) :
    (∀ u, u ≠ t → (nativeFdTaskInit w t tty).tables u = w.tables u) ∧
      ∀ k, ((nativeFdTaskInit w t tty).tables t).pipeMap k = none := by
  obtain ⟨-, tables, pipeMap⟩ := openTtys_tables (w := freshTable w t) (t := t) tty [0, 1, 2]
  unfold nativeFdTaskInit
  refine ⟨fun u ne => ?_, fun k => ?_⟩
  · rw [mapTable_of_ne _ ne]
    exact (tables u ne).trans (freshTable_tables_of_ne ne)
  · rw [mapTable_self]
    exact (congrFun pipeMap k).trans (freshTable_pipeMap w k)

theorem nativeFdTaskInit_assigns (recorded : Recorded w) (tty : Fin 3 → Bool) :
    Assigns t (fun _ => some false) w (nativeFdTaskInit w t tty) := by
  obtain ⟨recorded₁, entry₁, bits₁⟩ := freshTable_recorded recorded t
  obtain ⟨quiet, -⟩ := openTtys_tables (w := freshTable w t) (t := t) tty [0, 1, 2]
  have tables := (nativeFdTaskInit_tables (w := w) (t := t) tty).1
  have bits : ∀ u j, fdExecGet (nativeFdTaskInit w t tty) u j =
      if u = t then false else fdExecGet w u j := by
    intro u j
    unfold nativeFdTaskInit
    rw [fdExecGet_mapTable]
    exact (quiet.bit u j).trans (bits₁ u j)
  constructor
  case recorded =>
    have entry₂ := (recorded₁.quiet quiet).mapTable (t := t)
      (by rw [execEntry, quiet.execMeta]; exact entry₁) fun table => { table with ready := true }
    exact entry₂
  case live =>
    intro u j live
    by_cases here : u = t
    · exact .inr ⟨here, by rintro ⟨⟩⟩
    · exact .inl ((live_of_tables (tables u here)).mp live)
  case given =>
    intro j value given _
    rw [bits, if_pos rfl]
    exact Option.some.inj given
  case kept =>
    intro u j none_ _
    rw [bits, if_neg fun here => absurd (none_ here) (by rintro ⟨⟩)]

/-- A table is put away, and then its bits. -/
theorem Recorded.unready (recorded : Recorded w) (t : Slot) :
    let w' := fdExecDrop (w.mapTable t fun table => { table with ready := false }) t
    Recorded w' ∧ (w'.tables t).ready = false ∧
      ∀ u j, fdExecGet w' u j = if u = t then false else fdExecGet w u j := by
  have unready : ((w.mapTable t fun table => { table with ready := false }).tables t).ready = false := by
    rw [mapTable_self]
  have recorded₁ : Recorded (w.mapTable t fun table => { table with ready := false }) := by
    refine ⟨recorded.distinct, fun u ready => ?_⟩
    by_cases here : u = t
    · rw [here, unready] at ready
      cases ready
    · rw [mapTable_of_ne _ here] at ready
      exact recorded.ready u ready
  obtain ⟨recorded₂, bits⟩ := recorded₁.drop unready
  refine ⟨recorded₂, ?_, fun u j => ?_⟩
  · rw [level_fdExecDrop.ready, unready]
  · rw [bits, fdExecGet_mapTable]

theorem quiet_closeFiles (ks : List Fd) : Quiet w (ks.foldl (fun w k =>
    ((match (w.tables t).fdMap k with
      | none => w
      | some b => atmPosixClose w b).setFd t k none).setFlags t k 0) w) := by
  refine List.foldlRecOn _ _ (.refl w) fun w' quiet k _ => ?_
  split
  · exact (quiet.trans (quiet_setFd none)).trans (quiet_setFlags 0)
  · rename_i b _
    have closed : Quiet w' (atmPosixClose w' b) := ⟨rfl, fun _ => rfl⟩
    exact ((quiet.trans closed).trans (quiet_setFd none)).trans (quiet_setFlags 0)

/-- **A table is put away** with its bits. -/
theorem nativeFdTaskCleanup_assigns (recorded : Recorded w) (apart : Apart w) :
    Assigns t nothing w (nativeFdTaskCleanup w t) ∧ ∀ j, ¬Live (nativeFdTaskCleanup w t) t j := by
  have fewer := nativeFdTaskCleanup_fewer (t := t) apart
  revert fewer
  unfold nativeFdTaskCleanup
  split
  · rename_i unready
    refine fun _ => ⟨.refl recorded, fun j live => ?_⟩
    rw [ready_of_live live] at unready
    cases unready
  · dsimp only
    have quiet := ((quiet_nativeDirTaskInit (w := w) (t := t)).trans
      (quiet_nativePipeTaskCleanup (t := t))).trans (quiet_nativeSocketTaskCleanup (t := t))
    have files := quiet_closeFiles (t := t) (List.finRange 32)
      (w := nativeSocketTaskCleanup (nativePipeTaskCleanup (nativeDirTaskInit w t) t) t)
    have all := quiet.trans files
    generalize ((List.finRange 32).foldl _ (nativeSocketTaskCleanup _ t)) = w₁ at all
    intro fewer
    obtain ⟨recorded', unready, bits⟩ := (recorded.quiet all).unready t
    have closed : ∀ j, ¬Live (fdExecDrop (w₁.mapTable t fun table => { table with ready := false }) t) t j := by
      intro j live
      rw [ready_of_live live] at unready
      cases unready
    refine ⟨⟨recorded', fun live => .inl (fewer.live live), nofun, fun {u j} _ live => ?_⟩, closed⟩
    have other : u ≠ t := by
      rintro rfl
      exact closed j live
    rw [bits, if_neg other, all.bit]

/-! ### Inheriting -/

/-- What is not open may be said to have been given any bit. -/
theorem Assigns.widen (assigns : Assigns t K w w')
    (more : ∀ j, K j = L j ∨ (L j = none → K j = none) ∧ ¬Live w' t j) : Assigns t L w w' := by
  have none_ : ∀ j, L j = none → K j = none := by
    intro j absent
    rcases more j with same | ⟨implied, -⟩
    · exact same.trans absent
    · exact implied absent
  refine ⟨assigns.recorded, fun {u j} live => ?_, fun {j value} given live => ?_,
    fun {u j} absent live => assigns.kept (fun here => none_ j (absent here)) live⟩
  · exact (assigns.live live).imp_right fun both => ⟨both.1, mt (none_ j) both.2⟩
  · rcases more j with same | ⟨-, closed⟩
    · exact assigns.given (same.trans given) live
    · exact absurd live closed

/-- What a round of inheriting does, at a number where the child has nothing. -/
structure Inherited (child parent : Slot) (ks : List Fd) (w w' : World) : Prop where
  assigns : Assigns child (fun j => if j ∈ ks then some (fdExecGet w parent j) else none) w w'
  source : ∀ {j}, Live w' child j → Live w child j ∨ j ∈ ks ∧ Live w parent j
  tables : w'.tables parent = w.tables parent
  bits : ∀ j, fdExecGet w' parent j = fdExecGet w parent j
  ready : (w'.tables child).ready = (w.tables child).ready

theorem opened_eq (k : Fd) (value : Fd → Bool) :
    (fun j => if j ∈ [k] then some (value j) else none) = opened (some k) (value k) := by
  funext j
  by_cases same : j = k
  · rw [if_pos (List.mem_singleton.mpr same), same, opened_self]
  · rw [if_neg fun mem => same (List.mem_singleton.mp mem), opened_of_ne same]

/-- The child is given the descriptor and then its flags. -/
theorem Inherited.flagged {child parent : Slot} (recorded : Recorded w) (ne : child ≠ parent)
    (ready : (w.tables child).ready = true) (held : Live w parent k) (quiet : Quiet w w₁)
    (tables : w₁.tables parent = w.tables parent)
    (live : ∀ {u j}, Live w₁ u j → Live w u j ∨ u = child ∧ j = k) (n : UInt32) :
    Inherited child parent [k] w (fdExecSet (w₁.setFlags child k n) child k
      (fdExecGet (w₁.setFlags child k n) parent k)).1 := by
  have marked := level_setFlags (w := w₁) (t := child) (k := k) n
  have quiet₂ := quiet.trans (quiet_setFlags (t := child) (k := k) n)
  have tables₂ : (w₁.setFlags child k n).tables parent = w.tables parent := by
    rw [World.setFlags, mapTable_of_ne _ ne.symm, tables]
  rw [quiet₂.bit]
  generalize w₁.setFlags child k n = w₂ at marked quiet₂ tables₂
  have able : execEntry w₂ child ≠ none := by
    rw [execEntry, quiet₂.execMeta]
    exact recorded.ready child ready
  obtain ⟨f, stored, -⟩ := fdExecSet_spec (v := fdExecGet w parent k)
    (recorded.quiet quiet₂).distinct k (.inl able)
  obtain ⟨-, -, bits⟩ := (recorded.quiet quiet₂).set (v := fdExecGet w parent k) k (.inl able)
  obtain ⟨-, assigns⟩ := Assigns.set (v := fdExecGet w parent k) recorded quiet₂
    (fun there => live ((marked.live _ _).mp there)) (.inl (recorded.ready child ready))
  have after : ∀ u, (fdExecSet w₂ child k (fdExecGet w parent k)).1.tables u = w₂.tables u := by
    intro u
    rw [stored]
  constructor
  case assigns =>
    rw [opened_eq]
    exact assigns
  case source =>
    intro j there
    rcases assigns.live there with before | ⟨-, some_⟩
    · exact .inl before
    · by_cases here : j = k
      · subst here
        exact .inr ⟨List.mem_singleton_self j, held⟩
      · exact absurd (opened_of_ne here _) some_
  case tables => rw [after, tables₂]
  case bits =>
    intro j
    rw [bits, if_neg fun both => ne both.1.symm, quiet₂.bit]
  case ready => rw [after, quiet₂.ready]

/-- The child is given nothing. -/
theorem Inherited.idle {child parent : Slot} (recorded : Recorded w) (quiet : Quiet w w')
    (tables : w'.tables parent = w.tables parent) (live : ∀ u j, Live w' u j → Live w u j)
    (closed : ¬Live w child k) : Inherited child parent [k] w w' := by
  constructor
  case assigns =>
    refine (Assigns.of_fewer recorded quiet live).widen fun j => ?_
    by_cases mem : j ∈ [k]
    · exact .inr ⟨fun _ => rfl, fun there => closed (List.mem_singleton.mp mem ▸ live _ _ there)⟩
    · exact .inl (if_neg mem).symm
  case source => exact fun there => .inl (live _ _ there)
  case tables => exact tables
  case bits => exact quiet.bit parent
  case ready => exact quiet.ready child

theorem inheritFd_inherited {child parent : Slot} (recorded : Recorded w) (ne : child ≠ parent)
    (ready : (w.tables child).ready = true) (ready' : (w.tables parent).ready = true)
    (closed : ¬Live w child k) : Inherited child parent [k] w (inheritFd child parent w k).1 := by
  have other : parent ≠ child := ne.symm
  unfold inheritFd
  dsimp only
  split
  · exact .idle recorded (.refl w) rfl (fun _ _ => id) closed
  · split
    · rename_i b mapped
      have level := level_atmPosixOpen (w := w) (w.vfsUsed b)
      have quiet := quiet_atmPosixDup (w := w) b
      have tables : (atmPosixDup w b).1.tables = w.tables := by
        unfold atmPosixDup atmPosixOpen
        split
        · rfl
        · split
          · rfl
          · rfl
      unfold atmPosixDup at quiet tables ⊢
      split
      · rename_i w₁ eq
        rw [eq] at level quiet tables
        exact .idle recorded quiet (congrFun tables parent) (fun u j => (level.live u j).mp) closed
      · rename_i w₁ b' eq
        rw [eq] at level quiet tables
        have put := Put.after level (put_setFd (t := child) (k := k) (some b'))
        have held : Live w parent k := ⟨.file, ready', by rw [mapped]; rintro ⟨⟩⟩
        refine .flagged recorded ne ready held (quiet.trans (quiet_setFd _)) ?_ put.live _
        rw [World.setFd, mapTable_of_ne _ other, tables]
    · split
      · rename_i piped
        have held : Live w parent k := ⟨.pipe, ready', Option.isSome_iff_ne_none.mp piped⟩
        have quiet := quiet_nativePipeInherit (w := w) child parent k
        have put : (nativePipeInherit w child parent k).1.tables parent = w.tables parent ∧
            Put w (nativePipeInherit w child parent k).1 child k .pipe := by
          unfold nativePipeInherit
          split
          · exact ⟨rfl, (Level.refl w).put _ (by rintro _ ⟨⟩)⟩
          · split
            · exact ⟨rfl, (Level.refl w).put _ (by rintro _ ⟨⟩)⟩
            · rename_i i e _
              have same : (w.mapPipe i (·.add e)).tables parent = w.tables parent := rfl
              exact ⟨by rw [World.setPipe, mapTable_of_ne _ other, same],
                .after (level_mapPipe _) (put_setPipe _)⟩
        have refused : (nativePipeInherit w child parent k).2 < 0 → (nativePipeInherit w child parent k).1 = w := by
          unfold nativePipeInherit
          split
          · exact fun _ => rfl
          · split
            · exact fun _ => rfl
            · exact fun negative => absurd negative (lt_irrefl 0)
        split
        · rename_i negative
          rw [refused negative]
          exact .idle recorded (.refl w) rfl (fun _ _ => id) closed
        · exact .flagged recorded ne ready held quiet put.1 put.2.live _
      · exact .idle recorded (.refl w) rfl (fun _ _ => id) closed

theorem inheritFds_inherited {child parent : Slot} {ks : List Fd} (recorded : Recorded w)
    (ne : child ≠ parent) (ready : (w.tables child).ready = true)
    (ready' : (w.tables parent).ready = true) (distinct : ks.Nodup)
    (closed : ∀ k ∈ ks, ¬Live w child k) : Inherited child parent ks w (inheritFds child parent w ks).1 := by
  induction ks generalizing w with
  | nil =>
    refine ⟨(Assigns.refl recorded).widen fun j => .inl ?_, .inl, rfl, fun _ => rfl, rfl⟩
    exact (if_neg List.not_mem_nil).symm
  | cons k ks ih =>
    obtain ⟨new, distinct⟩ := List.nodup_cons.mp distinct
    have one := inheritFd_inherited recorded ne ready ready' (closed k (List.mem_cons_self ..))
    have closed' : ∀ j ∈ ks, ¬Live (inheritFd child parent w k).1 child j := by
      intro j mem there
      rcases one.source there with before | ⟨here, -⟩
      · exact closed j (List.mem_cons_of_mem _ mem) before
      · exact new (List.mem_singleton.mp here ▸ mem)
    unfold inheritFds
    split
    · rename_i w₁ eq
      rw [eq] at one closed'
      have rest := ih one.assigns.recorded (one.ready.trans ready) ((congrArg Table.ready one.tables).trans ready')
        distinct closed'
      constructor
      case assigns =>
        have both := one.assigns.trans rest.assigns
        have given : (fun j => (if j ∈ ks then some (fdExecGet w₁ parent j) else none).or
            (if j ∈ [k] then some (fdExecGet w parent j) else none)) =
            fun j => if j ∈ k :: ks then some (fdExecGet w parent j) else none := by
          funext j
          rw [one.bits]
          by_cases mem : j ∈ ks
          · simp only [mem, if_true, Option.some_or, List.mem_cons, or_true]
          · simp only [mem, if_false, Option.none_or, List.mem_cons, List.not_mem_nil, or_false]
        rwa [given] at both
      case source =>
        intro j there
        rcases rest.source there with before | ⟨mem, held⟩
        · rcases one.source before with before | ⟨here, held⟩
          · exact .inl before
          · exact .inr ⟨List.mem_cons.mpr (.inl (List.mem_singleton.mp here)), held⟩
        · exact .inr ⟨List.mem_cons_of_mem _ mem, (live_of_tables one.tables).mp held⟩
      case tables => exact rest.tables.trans one.tables
      case bits => exact fun j => (rest.bits j).trans (one.bits j)
      case ready => exact rest.ready.trans one.ready
    · rename_i w₁ eq
      rw [eq] at one closed'
      refine ⟨one.assigns.widen fun j => ?_, fun there => ?_, one.tables, one.bits, one.ready⟩
      · by_cases mem : j ∈ ks
        · refine .inr ⟨fun _ => if_neg fun here => ?_, closed' j mem⟩
          obtain rfl := List.mem_singleton.mp here
          exact new mem
        · refine .inl ?_
          simp only [mem, List.mem_cons, List.not_mem_nil, or_false]
      · exact (one.source there).imp_right fun both =>
          ⟨List.mem_cons.mpr (.inl (List.mem_singleton.mp both.1)), both.2⟩

/-- An empty table is inherited as it is. -/
theorem inheritFds_empty (ready : (w.tables u).ready = true) (empty : ∀ j, ¬Live w u j) (ks : List Fd) :
    inheritFds t u w ks = (w, true) := by
  induction ks with
  | nil => rfl
  | cons k ks ih =>
    have file : (w.tables u).fdMap k = none := by
      by_contra some_
      exact empty k ⟨.file, ready, some_⟩
    have pipe : (w.tables u).pipeMap k = none := by
      by_contra some_
      exact empty k ⟨.pipe, ready, some_⟩
    have socket : (w.tables u).socketMap k = none := by
      by_contra some_
      obtain ⟨n, mapped⟩ := Option.ne_none_iff_exists'.mp some_
      exact empty k ⟨.socket n, ready, mapped⟩
    have one : inheritFd t u w k = (w, true) := by
      unfold inheritFd
      dsimp only
      rw [file, pipe, socket]
      rfl
    rw [inheritFds, one]
    exact ih

/-- **A child is given its parent's bits**, with the descriptors. -/
theorem nativeFdTaskInherit_assigns (recorded : Recorded w) (apart : Apart w) (child parent : Slot) :
    Assigns child (fun j => if (w.tables parent).ready then some (fdExecGet w parent j) else none) w
        (nativeFdTaskInherit w child parent).1 ∧
      ∀ j, (w.tables parent).ready = true → Live (nativeFdTaskInherit w child parent).1 child j →
        Live w parent j := by
  cases ready' : (w.tables parent).ready with
  | false =>
    unfold nativeFdTaskInherit
    rw [if_pos ready']
    exact ⟨.refl recorded, fun j absurd_ => absurd absurd_ (by decide)⟩
  | true =>
    simp only [if_true, forall_const]
    obtain ⟨recorded₁, entry₁, bits₁⟩ := freshTable_recorded recorded child
    have fresh := apart.fewer (freshTable_fewer (t := child) ready_maps)
    have empty : ∀ j, ¬Live ((freshTable w child).mapTable child fun table =>
        { table with ready := true }) child j :=
      fun j ⟨a, held⟩ => (freshTable_holds ready_maps held).1 rfl
    have start : Assigns child nothing w ((freshTable w child).mapTable child fun table =>
        { table with ready := true }) := by
      refine ⟨recorded₁.mapTable entry₁ _, fun {u j} there => .inl ?_, nofun, fun {u j} _ there => ?_⟩
      · exact (freshTable_fewer ready_maps).live there
      · rw [fdExecGet_mapTable, bits₁, if_neg]
        rintro rfl
        exact empty j there
    have ready₁ : (((freshTable w child).mapTable child fun table =>
        { table with ready := true }).tables child).ready = true := by
      rw [mapTable_self]
    have parent₁ : child ≠ parent → ((freshTable w child).mapTable child fun table =>
        { table with ready := true }).tables parent = w.tables parent := fun ne => by
      rw [mapTable_of_ne _ ne.symm, freshTable_tables_of_ne ne.symm]
    have bit₁ : child ≠ parent → ∀ j, fdExecGet ((freshTable w child).mapTable child fun table =>
        { table with ready := true }) parent j = fdExecGet w parent j := fun ne j => by
      rw [fdExecGet_mapTable, bits₁, if_neg ne.symm]
    unfold nativeFdTaskInherit
    rw [ready', if_neg (by decide)]
    dsimp only
    generalize (freshTable w child).mapTable child (fun table => { table with ready := true }) = w₁ at *
    -- a child that is put away again has no descriptors
    have shut : ∀ {K w₂}, Assigns child K w w₂ → Apart w₂ →
        Assigns child (fun j => some (fdExecGet w parent j)) w (nativeFdTaskCleanup w₂ child) ∧
          ∀ j, Live (nativeFdTaskCleanup w₂ child) child j → Live w parent j := by
      intro K w₂ assigns apart₂
      obtain ⟨cleanup, closed⟩ := nativeFdTaskCleanup_assigns (t := child) assigns.recorded apart₂
      exact ⟨(assigns.then_ cleanup).widen fun j => .inr ⟨nofun, closed j⟩,
        fun j there => absurd there (closed j)⟩
    split
    · exact shut start fresh
    · by_cases same : child = parent
      · subst same
        rw [inheritFds_empty ready₁ empty]
        exact ⟨start.widen fun j => .inr ⟨nofun, empty j⟩, fun j there => absurd there (empty j)⟩
      · have inherited := inheritFds_inherited start.recorded same ready₁
          ((congrArg Table.ready (parent₁ same)).trans ready') (List.nodup_finRange 32) fun k _ => empty k
        have apart' := inheritFds_apart fresh child parent (List.nodup_finRange 32) fun k _ a held =>
          empty k ⟨a, held⟩
        have assigns := start.after inherited.assigns
        split
        · rename_i w₂ eq
          rw [eq] at inherited assigns
          refine ⟨?_, fun j there => ?_⟩
          · refine assigns.widen fun j => .inl ?_
            rw [if_pos (List.mem_finRange j), bit₁ same]
          · rcases inherited.source there with before | ⟨-, held⟩
            · exact absurd before (empty j)
            · exact (live_of_tables (parent₁ same)).mp held
        · rename_i w₂ eq
          rw [eq] at assigns apart'
          exact shut assigns apart'

end AtmKoala.Native
