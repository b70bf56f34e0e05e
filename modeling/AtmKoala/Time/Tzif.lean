import Mathlib.Data.List.Chain
import AtmKoala.Lib.Access
import AtmKoala.Time.Civil

/-!
Time zones: `tzif.c`.

* `parseMemory` reads a TZif file of the first or a later version into the rules of a zone. What
  it accepts has its transitions in order and its types in range (`parseMemory_sound`).
* `tzifConvert` is the conversion. `tzifConvert_iff`: it agrees with the offset in force at the
  Unix time of its argument exactly if the offset is the same, up to the days it forgets, at the
  beginning of the month.

A failed read of a zone and a zone without a name are `none`. The buffers of the names and of the
abbreviations are left out.
-/

namespace AtmKoala.Time

open Lib

/-! ### Words -/

/-- `be32`. -/
def be32 (p : Bytes) (i : Nat) : Nat :=
  (p.getD i 0).toNat * 2 ^ 24 + (p.getD (i + 1) 0).toNat * 2 ^ 16 + (p.getD (i + 2) 0).toNat * 2 ^ 8 +
    (p.getD (i + 3) 0).toNat

/-- `sbe32`. -/
def sbe32 (p : Bytes) (i : Nat) : Int := (UInt32.ofNat (be32 p i)).toInt32.toInt

/-- `sbe64`. -/
def sbe64 (p : Bytes) (i : Nat) : Int :=
  (UInt64.ofNat (be32 p i * 2 ^ 32 + be32 p (i + 4))).toInt64.toInt

/-! ### Files -/

def tzifFileMax : Nat := 8192
def tzifTransMax : Nat := 64
def tzifTypeMax : Nat := 16

/-- `tzif_type_t`. -/
structure TzifType where
  offset : Int
  isdst : Bool
deriving DecidableEq

/-- `tzif_transition_t`. -/
structure Transition where
  at_ : Int
  type : Nat
deriving DecidableEq

/-- Transition `t` is not later than `t'`. -/
def Transition.Before (t t' : Transition) : Prop := t.at_ ≤ t'.at_

instance (t t' : Transition) : Decidable (t.Before t') := inferInstanceAs (Decidable (_ ≤ _))

instance : Trans Transition.Before Transition.Before Transition.Before :=
  ⟨fun {t t' t''} (first : t.at_ ≤ t'.at_) (second : t'.at_ ≤ t''.at_) =>
    show t.at_ ≤ t''.at_ from le_trans first second⟩

/-- The rules in a `tzif_state_t`; its counts are the lengths of the lists. -/
structure Rules where
  types : List TzifType
  transitions : List Transition
  initialType : Nat
deriving DecidableEq

/-- What `header_counts` reads. -/
structure Counts where
  timecnt : Nat
  typecnt : Nat
  charcnt : Nat
  leapcnt : Nat
  stdcnt : Nat
  gmtcnt : Nat

/-- `header_counts` of the header at `h`. -/
def headerCounts (p : Bytes) (h : Nat) : Option Counts :=
  if (p.drop h).take 4 ≠ [84, 90, 105, 102] then none
  else
    let c : Counts :=
      { gmtcnt := be32 p (h + 20), stdcnt := be32 p (h + 24), leapcnt := be32 p (h + 28),
        timecnt := be32 p (h + 32), typecnt := be32 p (h + 36), charcnt := be32 p (h + 40) }
    if c.typecnt = 0 ∨ tzifTypeMax < c.typecnt ∨ tzifTransMax < c.timecnt ∨ 512 < c.charcnt ∨
        32 < c.leapcnt ∨ c.typecnt < c.stdcnt ∨ c.typecnt < c.gmtcnt then none
    else some c

/-- `block_bytes`. -/
def blockBytes (p : Bytes) (h timeSize : Nat) : Option Nat :=
  (headerCounts p h).bind fun c =>
    let n := c.timecnt * timeSize + c.timecnt + c.typecnt * 6 + c.charcnt +
      c.leapcnt * (timeSize + 4) + c.stdcnt + c.gmtcnt
    if tzifFileMax < n then none else some n

/-- The types, six bytes each. -/
def readTypes (p : Bytes) (infos count : Nat) : List TzifType :=
  (List.range count).map fun i =>
    { offset := sbe32 p (infos + i * 6), isdst := p.getD (infos + i * 6 + 4) 0 ≠ 0 }

/-- The transitions: their times and, apart from these, their types. -/
def readTransitions (p : Bytes) (times indices timeSize count : Nat) : List Transition :=
  (List.range count).map fun i =>
    { at_ := if timeSize = 8 then sbe64 p (times + i * 8) else sbe32 p (times + i * 4),
      type := (p.getD (indices + i) 0).toNat }

/-- `parse_block` of the header at `h`, with its body right behind. -/
def parseBlock (p : Bytes) (h bodyLen timeSize : Nat) : Option Rules :=
  match headerCounts p h, blockBytes p h timeSize with
  | some c, some need =>
    let times := h + 44
    let indices := times + c.timecnt * timeSize
    let infos := indices + c.timecnt
    let types := readTypes p infos c.typecnt
    let transitions := readTransitions p times indices timeSize c.timecnt
    if bodyLen < need then none
    else if ∃ i ∈ List.range c.typecnt, c.charcnt ≤ (p.getD (infos + i * 6 + 5) 0).toNat then none
    else if ∃ t ∈ transitions, c.typecnt ≤ t.type then none
    else if transitions.IsChain Transition.Before then
      some { types, transitions, initialType := (types.findIdx? fun t => !t.isdst).getD 0 }
    else none
  | _, _ => none

/-- `parse_memory`. -/
def parseMemory (p : Bytes) : Option Rules :=
  if p.length < 44 then none
  else
    match blockBytes p 0 4 with
    | none => none
    | some first =>
      if p.length < 44 + first then none
      else
        let h := 44 + first
        let version := p.getD 4 0
        if (version = 50 ∨ version = 51) ∧ h + 44 ≤ p.length ∧
            (p.drop h).take 4 = [84, 90, 105, 102] then
          match blockBytes p h 8 with
          | none => none
          | some second =>
            if p.length < h + 44 + second then none else parseBlock p h second 8
        else parseBlock p 0 first 4

/-! ### Conversion -/

/-- The zone that is loaded: the name and the rules of `active`. -/
structure Zone where
  name : String
  rules : Rules

/-- The loop of `tzif_convert` over the transitions: the type in force at `now`. -/
def typeAt (now : Int) : Nat → List Transition → Nat
  | type, [] => type
  | type, t :: ts => if t.at_ > now then type else typeAt now t.type ts

/-- `tzif_convert` gives the local time, the offset in minutes and whether it is daylight time. -/
structure Converted where
  time : Datetime
  offsetMinutes : Int
  dstActive : Bool
deriving DecidableEq

/-- The conversion, with the rules of the zone at hand. -/
def convertBy (rules : Rules) (utc : Datetime) : Option Converted :=
  let now := civilSeconds utc
  let type := rules.types.getD (typeAt now rules.initialType rules.transitions) ⟨0, false⟩
  if type.offset.tmod 60 ≠ 0 then none
  else
    let time := secondsToCivil (now + type.offset)
    if Valid time then some ⟨time, type.offset.tdiv 60, type.isdst⟩ else none

/-- The rules for `zone`: those that are loaded, else the ones `tzif_load` reads. -/
def rulesFor (active : Option Zone) (load : String → Option Rules) (zone : String) : Option Rules :=
  match active with
  | some z => if z.name = zone then some z.rules else load zone
  | none => load zone

/-- `tzif_convert`. -/
def tzifConvert (active : Option Zone) (load : String → Option Rules) (zone : String)
    (utc : Datetime) : Option Converted :=
  if ¬Valid utc then none else (rulesFor active load zone).bind (convertBy · utc)

/-! ### What is in force -/

/-- The type of the last transition at or before `now`, and the initial type before the first. -/
def Rules.typeOf (rules : Rules) (now : Int) : Nat :=
  ((rules.transitions.filter fun t => decide (t.at_ ≤ now)).getLast?.map Transition.type).getD
    rules.initialType

/-- The offset in force at `now`. -/
def Rules.offsetAt (rules : Rules) (now : Int) : Int :=
  (rules.types.getD (rules.typeOf now) ⟨0, false⟩).offset

/-- The rules of a zone are sound: the transitions are in order, and every type is there. -/
structure Rules.Sound (rules : Rules) : Prop where
  ordered : rules.transitions.Pairwise Transition.Before
  initial : rules.initialType < rules.types.length
  types : ∀ t ∈ rules.transitions, t.type < rules.types.length

theorem headerCounts_types {p : Bytes} {h : Nat} {c : Counts} (counted : headerCounts p h = some c) :
    0 < c.typecnt := by
  unfold headerCounts at counted
  split at counted
  · cases counted
  · dsimp only at counted
    split at counted
    · cases counted
    · rename_i accepted
      cases counted
      rw [not_or] at accepted
      exact Nat.pos_of_ne_zero accepted.1

theorem parseBlock_sound {p : Bytes} {h bodyLen timeSize : Nat} {rules : Rules}
    (parsed : parseBlock p h bodyLen timeSize = some rules) : rules.Sound := by
  unfold parseBlock at parsed
  split at parsed
  · rename_i c need counted _
    dsimp only at parsed
    have length : ∀ infos, (readTypes p infos c.typecnt).length = c.typecnt := fun infos => by
      rw [readTypes, List.length_map, List.length_range]
    split at parsed
    · cases parsed
    · split at parsed
      · cases parsed
      · split at parsed
        · cases parsed
        · rename_i inside
          split at parsed
          · rename_i chain
            cases parsed
            refine ⟨List.isChain_iff_pairwise.mp chain, ?_, fun t mem => ?_⟩
            · rw [length]
              cases found : List.findIdx? (fun t : TzifType => !t.isdst) _ with
              | none => exact headerCounts_types counted
              | some i =>
                have bound := (List.findIdx?_eq_some_iff_getElem.mp found).1
                rwa [length] at bound
            · rw [length]
              by_contra outside
              exact inside ⟨t, mem, Nat.not_lt.mp outside⟩
          · cases parsed
  · cases parsed

/-- **What is accepted is sound.** -/
theorem parseMemory_sound {p : Bytes} {rules : Rules} (parsed : parseMemory p = some rules) :
    rules.Sound := by
  unfold parseMemory at parsed
  split at parsed
  · cases parsed
  · split at parsed
    · cases parsed
    · split at parsed
      · cases parsed
      · dsimp only at parsed
        split at parsed
        · split at parsed
          · cases parsed
          · split at parsed
            · cases parsed
            · exact parseBlock_sound parsed
        · exact parseBlock_sound parsed

/-- **The loop finds the last transition that is due**, since they are in order. -/
theorem typeAt_eq (now : Int) (type : Nat) {ts : List Transition}
    (ordered : ts.Pairwise Transition.Before) :
    typeAt now type ts =
      ((ts.filter fun t => decide (t.at_ ≤ now)).getLast?.map Transition.type).getD type := by
  induction ts generalizing type with
  | nil => rfl
  | cons t ts ih =>
    obtain ⟨first, rest⟩ := List.pairwise_cons.mp ordered
    rw [typeAt]
    split
    · rename_i later
      -- From a transition that is not due, none is.
      have none_ : (t :: ts).filter (fun t => decide (t.at_ ≤ now)) = [] := by
        rw [List.filter_eq_nil_iff]
        intro t' mem
        rw [decide_eq_true_eq, not_le]
        rcases List.mem_cons.mp mem with rfl | mem
        · exact later
        · exact lt_of_lt_of_le later (first t' mem)
      rw [none_]
      rfl
    · rename_i due
      rw [ih t.type rest, List.filter_cons_of_pos (by simpa using due), List.getLast?_cons]
      cases (ts.filter fun t => decide (t.at_ ≤ now)).getLast? with
      | none => rfl
      | some t' => rfl

theorem Rules.Sound.typeAt {rules : Rules} (sound : rules.Sound) (now : Int) :
    (rules.types.getD (Time.typeAt now rules.initialType rules.transitions) ⟨0, false⟩).offset =
      rules.offsetAt now := by
  rw [typeAt_eq now rules.initialType sound.ordered]
  rfl

/-- The time comes out if the offset is one of whole minutes. -/
theorem convertBy_time {rules : Rules} (sound : rules.Sound) {utc time : Datetime}
    (valid : Valid time) :
    (convertBy rules utc).map Converted.time = some time ↔
      rules.offsetAt (civilSeconds utc) % 60 = 0 ∧
        civilSeconds utc + rules.offsetAt (civilSeconds utc) = rtcUnixSeconds time := by
  unfold convertBy
  dsimp only
  rw [sound.typeAt]
  have whole : (rules.offsetAt (civilSeconds utc)).tmod 60 = 0 ↔
      rules.offsetAt (civilSeconds utc) % 60 = 0 :=
    Int.dvd_iff_tmod_eq_zero.symm.trans Int.dvd_iff_emod_eq_zero
  by_cases minutes : rules.offsetAt (civilSeconds utc) % 60 = 0
  · rw [if_neg (not_not.mpr (whole.mpr minutes))]
    constructor
    · intro converted
      refine ⟨minutes, ?_⟩
      split at converted
      · have same := Option.some.inj converted
        dsimp only at same
        rw [← same, rtcUnixSeconds_secondsToCivil]
      · cases converted
    · rintro ⟨-, same⟩
      rw [same, secondsToCivil_rtcUnixSeconds valid, if_pos valid]
      rfl
  · rw [if_pos (whole.not.mpr minutes)]
    exact ⟨nofun, fun both => absurd both.1 minutes⟩

/-- **Conversion through a TZif zone.** When the Unix time of a valid time and the offset in
force at it make up a time in range, the conversion comes to this time exactly if the offset is
one of whole minutes and the one in force at the same time of day on the first of the month
makes up for the days since. -/
theorem tzifConvert_iff {p : Bytes} {rules : Rules} (parsed : parseMemory p = some rules)
    {active : Option Zone} {load : String → Option Rules} {zone : String}
    (found : rulesFor active load zone = some rules) {utc time : Datetime} (valid : Valid utc)
    (inRange : Valid time)
    (civil : rtcUnixSeconds time =
      rtcUnixSeconds utc + rules.offsetAt (rtcUnixSeconds utc)) :
    (tzifConvert active load zone utc).map Converted.time = some time ↔
      rules.offsetAt (rtcUnixSeconds utc) % 60 = 0 ∧
        rules.offsetAt (rtcUnixSeconds utc - (utc.day - 1) * 86400) =
          rules.offsetAt (rtcUnixSeconds utc) + (utc.day - 1) * 86400 := by
  rw [tzifConvert, if_neg (not_not.mpr valid), found, Option.bind_some,
    convertBy_time (parseMemory_sound parsed) inRange, civil, civilSeconds_eq]
  omega

/-- The zone of `tzif_selftest`: one transition, to daylight time. -/
def selftestZone : Bytes :=
  [84, 90, 105, 102] ++ List.replicate 28 0 ++ [0, 0, 0, 1, 0, 0, 0, 2, 0, 0, 0, 8] ++
    [0, 0, 0, 0, 1, 0, 0, 0, 0, 0, 0, 0, 0, 14, 16, 1, 4, 83, 84, 68, 0, 68, 83, 84, 0]

def selftestRules : Rules where
  types := [⟨0, false⟩, ⟨3600, true⟩]
  transitions := [⟨0, 1⟩]
  initialType := 0

theorem selftestZone_parsed : parseMemory selftestZone = some selftestRules := by decide +kernel

/-- On the first of a month the conversion is right. -/
theorem tzifConvert_iff_first :
    (tzifConvert (some ⟨"Test/Zone", selftestRules⟩) (fun _ => none) "Test/Zone"
      ⟨1970, 1, 1, 0, 0, 1⟩).map Converted.time = some ⟨1970, 1, 1, 1, 0, 1⟩ :=
  (tzifConvert_iff selftestZone_parsed rfl (by decide) (by decide) (by decide)).mpr
    (by decide)

/-- **A date is lost**: one second into the second of January becomes one hour later on the
first. -/
theorem second_of_january :
    ¬∀ (p : Bytes) (rules : Rules) (active : Option Zone) (load : String → Option Rules)
      (zone : String) (utc time : Datetime), parseMemory p = some rules →
      rulesFor active load zone = some rules → Valid utc → Valid time →
      rtcUnixSeconds time = rtcUnixSeconds utc + rules.offsetAt (rtcUnixSeconds utc) →
      (tzifConvert active load zone utc).map Converted.time = some time := by
  intro all
  have converted := all selftestZone selftestRules (some ⟨"Test/Zone", selftestRules⟩)
    (fun _ => none) "Test/Zone" ⟨1970, 1, 2, 0, 0, 1⟩ ⟨1970, 1, 2, 1, 0, 1⟩ selftestZone_parsed rfl
    (by decide) (by decide) (by decide)
  revert converted
  decide

end AtmKoala.Time
