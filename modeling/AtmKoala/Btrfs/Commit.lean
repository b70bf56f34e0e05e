import AtmKoala.Btrfs.Select

/-!
Mirrors that are written one after the other, and cut off.

* `superAt_cut`: what a cut leaves at the mirrors; one of them may be torn, those before it are
  new, those behind it old.
* `Cut` is what the selection needs to know of that, and `Cut.select` what it then selects.
-/

namespace AtmKoala.Btrfs

open Lib Partmgr
open Catfs (World)

/-! ### Writes of a mirror -/

/-- The writes of a superblock to a mirror. -/
def mirrorWrites (drive : Int) (partLba : UInt32) (i : Fin 3) (s : Super) : List ((Int × Nat) × Sector) :=
  row (mirrorAddr drive partLba i) (sector s) 8

/-- The superblock of which the first `m` sectors are new. -/
def mix (new old : Super) (m : Nat) : Super := fun k => if k.val / 512 < m then new k else old k

theorem mirrorAddr_eq (drive : Int) (partLba : UInt32) (i : Fin 3) {j : Nat} (less : j < 8) :
    mirrorAddr drive partLba i j =
      (drive, (partLba.toNat + (mirrorOffset i).toNat / 512 + j) % 2 ^ 28) := by
  show (drive, (UInt32.ofNat (mirrorLba partLba i) + UInt32.ofNat j).toNat % 2 ^ 28) = _
  congr 1
  rw [UInt32.toNat_add, UInt32.toNat_ofNat', UInt32.toNat_ofNat']
  unfold mirrorLba
  omega

/-- No two sectors of mirrors share a place on the bus. -/
theorem mirrorAddr_inj {drive : Int} {partLba : UInt32} {i i' : Fin 3} {j j' : Nat} (less : j < 8)
    (less' : j' < 8) (same : mirrorAddr drive partLba i j = mirrorAddr drive partLba i' j') :
    i = i' ∧ j = j' := by
  rw [mirrorAddr_eq drive partLba i less, mirrorAddr_eq drive partLba i' less'] at same
  have equal := congrArg Prod.snd same
  dsimp only at equal
  have offset : ∀ x : Fin 3, (mirrorOffset x).toNat / 512 = 128 ∧ x = 0 ∨
      (mirrorOffset x).toNat / 512 = 131072 ∧ x = 1 ∨
      (mirrorOffset x).toNat / 512 = 536870912 ∧ x = 2 := by decide
  rcases offset i with ⟨at', rfl⟩ | ⟨at', rfl⟩ | ⟨at', rfl⟩ <;>
    rcases offset i' with ⟨at'', rfl⟩ | ⟨at'', rfl⟩ | ⟨at'', rfl⟩
  all_goals first
    | exact ⟨rfl, by omega⟩
    | exact absurd equal (by omega)

theorem superAt_row {drive : Int} {partLba : UInt32} {i : Fin 3} {s : Super} {disk : Disk} (m : Nat) :
    superAt (applyWrites disk ((mirrorWrites drive partLba i s).take m)) drive partLba i =
      mix s (superAt disk drive partLba i) m := by
  funext k
  have less : k.val / 512 < 8 := by omega
  have apart : ∀ j j', j < 8 → j' < 8 →
      mirrorAddr drive partLba i j = mirrorAddr drive partLba i j' → j = j' :=
    fun j j' less less' same => (mirrorAddr_inj less less' same).2
  unfold superAt mix mirrorWrites
  rw [applyWrites_row apart m less]
  split
  · have inside : k.val % 512 < 512 := by omega
    have whole : k.val / 512 * 512 + k.val % 512 = k.val := by omega
    simp only [Block.byteAt, inside, dif_pos, sector, whole, k.isLt]
  · rfl

theorem superAt_row_other {drive : Int} {partLba : UInt32} {i x : Fin 3} {s : Super} {disk : Disk}
    {m : Nat} (other : x ≠ i) :
    superAt (applyWrites disk ((mirrorWrites drive partLba i s).take m)) drive partLba x =
      superAt disk drive partLba x := by
  funext k
  unfold superAt mirrorWrites
  rw [applyWrites_row_other fun j less same =>
    other (mirrorAddr_inj less (show k.val / 512 < 8 by omega) same).1.symm]

theorem mix_all (new old : Super) : mix new old 8 = new := by
  funext k
  unfold mix
  rw [if_pos (by omega)]

section Phases

variable {drive : Int} {partLba : UInt32} {new : Fin 3 → Super} {disk : Disk}

/-- Mirrors that are written whole. -/
theorem superAt_done {done : List (Fin 3)} (x : Fin 3) :
    superAt (applyWrites disk (done.flatMap fun i => mirrorWrites drive partLba i (new i))) drive partLba x =
      if x ∈ done then new x else superAt disk drive partLba x := by
  induction done generalizing disk with
  | nil => rfl
  | cons i done ih =>
    have whole : (mirrorWrites drive partLba i (new i)).take 8 = mirrorWrites drive partLba i (new i) :=
      List.take_of_length_le (by simp [mirrorWrites, row])
    rw [List.flatMap_cons, applyWrites_append, ih, ← whole]
    by_cases behind : x ∈ done
    · rw [if_pos behind, if_pos (List.mem_cons_of_mem i behind)]
    · rw [if_neg behind]
      by_cases here : x = i
      · rw [here, superAt_row, mix_all, if_pos List.mem_cons_self]
      · rw [superAt_row_other here, if_neg (by simp [here, behind])]

/-- What a cut in the writes of mirror `i` leaves. -/
theorem superAt_cut {done : List (Fin 3)} {i : Fin 3} (fresh : i ∉ done) (m : Nat) (x : Fin 3) :
    superAt (applyWrites disk ((done.flatMap fun i => mirrorWrites drive partLba i (new i)) ++
      (mirrorWrites drive partLba i (new i)).take m)) drive partLba x =
      if x ∈ done then new x
      else if x = i then mix (new i) (superAt disk drive partLba i) m
      else superAt disk drive partLba x := by
  rw [applyWrites_append]
  by_cases here : x = i
  · rw [here, superAt_row, superAt_done, if_neg fresh, if_neg fresh, if_pos rfl]
  · rw [superAt_row_other here, superAt_done, if_neg here]

end Phases

/-! ### What a cut leaves for the probe -/

/-- The mirrors after a cut: those that can be trusted before it are old, new or torn, at most
one is torn, and while one is not new all lower ones are old. -/
structure Cut (usable : Fin 3 → Prop) (old new now : Fin 3 → Super) : Prop where
  other : ∀ x, ¬usable x → now x = old x
  whole : ∀ x, usable x → now x = old x ∨ now x = new x ∨ csumOk (now x) = false
  oneTorn : ∀ x y, usable x → usable y → x ≠ y → csumOk (now x) = true ∨ csumOk (now y) = true
  descending : ∀ x y, usable x → usable y → y < x → now x ≠ new x → now y = old y

theorem Cut.start {usable : Fin 3 → Prop} {old : Fin 3 → Super} (new : Fin 3 → Super)
    (csum : ∀ x, usable x → csumOk (old x) = true) : Cut usable old new old where
  other := fun _ _ => rfl
  whole := fun _ _ => .inl rfl
  oneTorn := fun x _ used _ _ => .inl (csum x used)
  descending := fun _ _ _ _ _ _ => rfl

/-- The mirrors that are written, in the order of the writes. -/
def written (usable : Fin 3 → Bool) : List (Fin 3) := writeOrder.filter usable

theorem mem_written {usable : Fin 3 → Bool} {x : Fin 3} : x ∈ written usable ↔ usable x = true := by
  have all : x ∈ writeOrder := by revert x; decide
  unfold written
  rw [List.mem_filter]
  exact ⟨fun h => h.2, fun h => ⟨all, h⟩⟩

theorem written_descending (usable : Fin 3 → Bool) : (written usable).Pairwise (· > ·) :=
  List.Pairwise.filter _ (show writeOrder.Pairwise (· > ·) by decide)

/-- Every cut through the writes leaves the mirrors as `Cut` says. -/
theorem cut_of_writes {usable : Fin 3 → Bool} {drive : Int} {partLba : UInt32} {disk : Disk}
    {new : Fin 3 → Super}
    (csumOld : ∀ x, usable x = true → csumOk (superAt disk drive partLba x) = true)
    (csumNew : ∀ x, usable x = true → csumOk (new x) = true)
    (detected : ∀ x, usable x = true → ∀ m,
      mix (new x) (superAt disk drive partLba x) m = new x ∨
      mix (new x) (superAt disk drive partLba x) m = superAt disk drive partLba x ∨
      csumOk (mix (new x) (superAt disk drive partLba x) m) = false) (k : Nat) :
    Cut (fun x => usable x = true) (superAt disk drive partLba) new
      (superAt (applyWrites disk
        (((written usable).flatMap fun i => mirrorWrites drive partLba i (new i)).take k)) drive partLba) := by
  by_cases none : written usable = []
  · rw [none]
    show Cut _ _ _ (superAt (applyWrites disk (List.take k [])) drive partLba)
    rw [List.take_nil]
    exact Cut.start new csumOld
  · obtain ⟨done, i, rest, m, split, cut⟩ := take_flatMap none k
    rw [cut]
    have descending := written_descending usable
    rw [split, List.pairwise_append] at descending
    obtain ⟨-, behind, across⟩ := descending
    have fresh : i ∉ done := fun mem => lt_irrefl i (across i mem i List.mem_cons_self)
    have place : ∀ x, usable x = true → x ∈ done ∨ x = i ∨ x ∈ rest := by
      intro x used
      have mem := mem_written.mpr used
      rw [split] at mem
      simpa using mem
    have inOrder : usable i = true := mem_written.mp (by rw [split]; simp)
    exact
      { other := by
          intro x unused
          have notDone : x ∉ done := fun mem => unused (mem_written.mp (by rw [split]; simp [mem]))
          have notHere : x ≠ i := fun same => unused (by rw [same]; exact inOrder)
          rw [superAt_cut fresh, if_neg notDone, if_neg notHere]
        whole := by
          intro x used
          rw [superAt_cut fresh]
          by_cases before : x ∈ done
          · rw [if_pos before]
            exact .inr (.inl rfl)
          · rw [if_neg before]
            by_cases here : x = i
            · rw [if_pos here, here]
              rcases detected i inOrder m with same | same | torn
              · exact .inr (.inl same)
              · exact .inl same
              · exact .inr (.inr torn)
            · rw [if_neg here]
              exact .inl rfl
        oneTorn := by
          intro x y used used' apart
          have intact : ∀ z, usable z = true → z ≠ i → csumOk (superAt (applyWrites disk
              ((done.flatMap fun i => mirrorWrites drive partLba i (new i)) ++
                (mirrorWrites drive partLba i (new i)).take m)) drive partLba z) = true := by
            intro z used other
            rw [superAt_cut fresh, if_neg other]
            split
            · exact csumNew z used
            · exact csumOld z used
          by_cases here : x = i
          · exact .inr (intact y used' fun same => apart (here.trans same.symm))
          · exact .inl (intact x used here)
        descending := by
          intro x y used used' lower old
          have notDone : x ∉ done := by
            intro mem
            rw [superAt_cut fresh, if_pos mem] at old
            exact old rfl
          have yBehind : y ∉ done ∧ y ≠ i := by
            rcases place x used with mem | rfl | mem
            · exact absurd mem notDone
            · exact ⟨fun mem => lt_asymm lower (across y mem x List.mem_cons_self), ne_of_lt lower⟩
            · have below := List.rel_of_pairwise_cons behind mem
              exact ⟨fun mem' => lt_asymm lower (across y mem' x (List.mem_cons_of_mem i mem)),
                ne_of_lt (lt_trans lower below)⟩
          rw [superAt_cut fresh, if_neg yBehind.1, if_neg yBehind.2] }

/-- A mirror that is valid and has a right checksum. -/
structure Mirror.Sound (m : Mirror) : Prop where
  acceptable : m.acceptable = true
  csum : m.csumOk = true

theorem sound_of_valid {i : Fin 3} {s : Super} :
    (Mirror.of i (some s)).Sound ↔ superValidAt s (mirrorOffset i) = true := by
  have split : superValidAt s (mirrorOffset i) = true ↔
      magicOk s = true ∧ geometryOk s = true ∧ u64At s.byteAt 0x30 = mirrorOffset i ∧
        csumOk s = true := by
    unfold superValidAt
    rw [decide_eq_true_iff]
  have taken : (Mirror.of i (some s)).acceptable = true ↔
      True ∧ magicOk s = true ∧ geometryOk s = true ∧ u64At s.byteAt 0x30 = mirrorOffset i := by
    unfold Mirror.acceptable
    rw [decide_eq_true_iff]
    exact ⟨fun h => ⟨trivial, h.2⟩, fun h => ⟨rfl, h.2⟩⟩
  rw [split]
  constructor
  · intro sound
    obtain ⟨-, magic, geometry, bytenr⟩ := taken.mp sound.acceptable
    exact ⟨magic, geometry, bytenr, sound.csum⟩
  · intro ⟨magic, geometry, bytenr, csum⟩
    exact ⟨taken.mpr ⟨trivial, magic, geometry, bytenr⟩, csum⟩

theorem Mirror.rank_of_csum {m : Mirror} (csum : m.csumOk = true) :
    m.rank = 2 ^ 64 + m.generation.toNat := by
  unfold Mirror.rank
  rw [if_pos csum]

theorem Mirror.rank_high {m : Mirror} (csum : m.csumOk = true) : 2 ^ 64 ≤ m.rank := by
  rw [Mirror.rank_of_csum csum]
  omega

theorem Mirror.csum_of_rank {m : Mirror} (high : 2 ^ 64 ≤ m.rank) : m.csumOk = true := by
  have small := m.generation.toNat_lt
  unfold Mirror.rank at high
  by_contra wrong
  rw [if_neg wrong] at high
  omega

section Selection

variable {shown : Fin 3 → Prop} [DecidablePred shown] {old new now : Fin 3 → Super} {x : Fin 3}

/-- The mirrors a probe finds when `shown` of them can be read. -/
def mirrorsOf (shown : Fin 3 → Prop) [DecidablePred shown] (v : Fin 3 → Super) (x : Fin 3) : Mirror :=
  Mirror.of x (if shown x then some (v x) else none)

theorem mirrorsOf_shown {v : Fin 3 → Super} (here : shown x) :
    mirrorsOf shown v x = Mirror.of x (some (v x)) := by
  unfold mirrorsOf
  rw [if_pos here]

theorem mirrorsOf_csum {v : Fin 3 → Super} :
    (mirrorsOf shown v x).csumOk = true ↔ shown x ∧ csumOk (v x) = true := by
  by_cases here : shown x
  · rw [mirrorsOf_shown here]
    exact ⟨fun csum => ⟨here, csum⟩, fun h => h.2⟩
  · unfold mirrorsOf
    rw [if_neg here]
    exact ⟨fun csum => (nomatch csum), fun h => absurd h.1 here⟩

theorem mirrorsOf_sound {v : Fin 3 → Super} :
    (mirrorsOf shown v x).Sound ↔ shown x ∧ superValidAt (v x) (mirrorOffset x) = true := by
  by_cases here : shown x
  · rw [mirrorsOf_shown here, sound_of_valid]
    exact ⟨fun valid => ⟨here, valid⟩, fun h => h.2⟩
  · refine ⟨fun sound => ?_, fun h => absurd h.1 here⟩
    exact absurd (mirrorsOf_csum.mp sound.csum).1 here

/-- **What is selected after a cut**: a mirror with a right checksum, which is new or the one
that was selected before. -/
theorem Cut.select (cut : Cut (fun x => shown x ∧ csumOk (old x) = true) old new now)
    (renewed : ∀ x, superValidAt (old x) (mirrorOffset x) = true →
      superValidAt (new x) (mirrorOffset x) = true)
    (two : ∃ a b, a ≠ b ∧ (mirrorsOf shown old a).Sound ∧ (mirrorsOf shown old b).Sound)
    (level : ∀ a b, (mirrorsOf shown old a).Sound → (mirrorsOf shown old b).Sound →
      (mirrorsOf shown old a).generation = (mirrorsOf shown old b).generation)
    {before : Fin 3} (selected : select (mirrorsOf shown old) = some before) :
    ∃ s, Btrfs.select (mirrorsOf shown now) = some s ∧ (mirrorsOf shown now s).csumOk = true ∧
      (now s = new s ∨ s = before ∧ now s = old s) := by
  have usable : ∀ {a}, (mirrorsOf shown old a).Sound → shown a ∧ csumOk (old a) = true :=
    fun sound => mirrorsOf_csum.mp sound.csum
  have kept : ∀ {a}, (mirrorsOf shown old a).Sound → csumOk (now a) = true →
      (mirrorsOf shown now a).Sound := by
    intro a sound csum
    have valid := (mirrorsOf_sound.mp sound).2
    refine mirrorsOf_sound.mpr ⟨(usable sound).1, ?_⟩
    rcases cut.whole a (usable sound) with same | same | torn
    · rwa [same]
    · rw [same]
      exact renewed a valid
    · rw [torn] at csum
      cases csum
  obtain ⟨intact, sound⟩ : ∃ c, (mirrorsOf shown now c).Sound := by
    obtain ⟨a, b, apart, first, second⟩ := two
    rcases cut.oneTorn a b (usable first) (usable second) apart with csum | csum
    · exact ⟨a, kept first csum⟩
    · exact ⟨b, kept second csum⟩
  obtain ⟨s, chosen⟩ := select_isSome sound.acceptable
  obtain ⟨accepted, most, firstOf⟩ := select_spec chosen
  have csum : (mirrorsOf shown now s).csumOk = true :=
    Mirror.csum_of_rank (le_trans (Mirror.rank_high sound.csum) (most intact sound.acceptable))
  obtain ⟨here, right⟩ := mirrorsOf_csum.mp csum
  have trusted : csumOk (old s) = true := by
    by_contra untrusted
    have same := cut.other s fun h => untrusted h.2
    rw [same] at right
    exact untrusted right
  refine ⟨s, chosen, csum, ?_⟩
  by_cases renewedHere : now s = new s
  · exact .inl renewedHere
  have same : now s = old s := by
    rcases cut.whole s ⟨here, trusted⟩ with same | same | torn
    · exact same
    · exact absurd same renewedHere
    · rw [torn] at right
      cases right
  refine .inr ⟨?_, same⟩
  -- all trusted mirrors had one generation, so the lowest was selected and still is
  have equal : mirrorsOf shown now s = mirrorsOf shown old s := by
    unfold mirrorsOf
    rw [same]
  have wasSound : (mirrorsOf shown old s).Sound := equal ▸ ⟨accepted, csum⟩
  obtain ⟨accepted', most', firstOf'⟩ := select_spec selected
  have soundBefore : (mirrorsOf shown old before).Sound :=
    ⟨accepted', Mirror.csum_of_rank
      (le_trans (Mirror.rank_high wasSound.csum) (most' s wasSound.acceptable))⟩
  have rank : (mirrorsOf shown old before).rank = (mirrorsOf shown old s).rank := by
    unfold Mirror.rank
    rw [soundBefore.csum, wasSound.csum, level before s soundBefore wasSound]
  have low : before ≤ s := firstOf' s wasSound.acceptable (le_of_eq rank)
  rcases lt_or_eq_of_le low with less | this
  · have still := cut.descending s before ⟨here, trusted⟩ (usable soundBefore) less renewedHere
    have equal' : mirrorsOf shown now before = mirrorsOf shown old before := by
      unfold mirrorsOf
      rw [still]
    refine absurd (firstOf before ?_ ?_) (not_le.mpr less)
    · rw [equal']
      exact accepted'
    · rw [equal', equal, rank]
  · exact this.symm

end Selection

end AtmKoala.Btrfs
