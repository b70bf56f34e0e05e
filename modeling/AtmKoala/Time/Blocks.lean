import AtmKoala.Time.Tzif

/-!
What `parse_memory` reads of a TZif file, and what it makes of it.

* `parseMemoryIn` is `parse_memory` on slices: each part of the file is taken out of it before it
  is read, and a slice that is not inside the file is a fault. There is none.
* The format: `Stored` says that the rules are those of the block behind the header at `h`, with
  times of `width` bytes.
* `tzif_parse`: what is accepted is the block of 64-bit times where there is one, else the block
  of 32-bit times.
-/

namespace AtmKoala.Time

open Lib

/-! ### Slices -/

/-- `parse_block`: it reads the header and the first three arrays of the body. -/
def parseBlockIn (p : Bytes) (h bodyLen timeSize : Nat) : Access (Option Rules) := do
  let header ← bytesAt p h 44
  match headerCounts header 0, blockBytes header 0 timeSize with
  | some c, some need =>
    if bodyLen < need then pure none
    else
      let block ← bytesAt p h (44 + c.timecnt * timeSize + c.timecnt + c.typecnt * 6)
      pure (parseBlock block 0 bodyLen timeSize)
  | _, _ => pure none

/-- `parse_memory`. -/
def parseMemoryIn (p : Bytes) : Access (Option Rules) :=
  if p.length < 44 then pure none
  else do
    let header ← bytesAt p 0 44
    match blockBytes header 0 4 with
    | none => pure none
    | some first =>
      if p.length < 44 + first then pure none
      else
        let version := header.getD 4 0
        if (version = 50 ∨ version = 51) ∧ 44 + first + 44 ≤ p.length then
          let next ← bytesAt p (44 + first) 44
          if next.take 4 = [84, 90, 105, 102] then
            match blockBytes next 0 8 with
            | none => pure none
            | some second =>
              if p.length < 44 + first + 44 + second then pure none
              else parseBlockIn p (44 + first) second 8
          else parseBlockIn p 0 first 4
        else parseBlockIn p 0 first 4

section Slices

variable {p : Bytes} {h n : Nat}

theorem getD_slice (p : Bytes) {i : Nat} (inside : i < n) :
    ((p.drop h).take n).getD i 0 = p.getD (h + i) 0 := by
  rw [List.getD_eq_getElem?_getD, List.getElem?_take_of_lt inside, List.getElem?_drop,
    ← List.getD_eq_getElem?_getD]

theorem be32_slice (p : Bytes) {i : Nat} (inside : i + 4 ≤ n) :
    be32 ((p.drop h).take n) i = be32 p (h + i) := by
  unfold be32
  rw [getD_slice p (by omega), getD_slice p (by omega), getD_slice p (by omega),
    getD_slice p (by omega)]
  simp only [Nat.add_assoc]

theorem headerCounts_slice (p : Bytes) (inside : 44 ≤ n) :
    headerCounts ((p.drop h).take n) 0 = headerCounts p h := by
  unfold headerCounts
  dsimp only
  rw [List.drop_zero, List.take_take, Nat.min_eq_left (by omega), be32_slice p (by omega),
    be32_slice p (by omega), be32_slice p (by omega), be32_slice p (by omega),
    be32_slice p (by omega), be32_slice p (by omega)]

theorem blockBytes_slice (p : Bytes) (timeSize : Nat) (inside : 44 ≤ n) :
    blockBytes ((p.drop h).take n) 0 timeSize = blockBytes p h timeSize := by
  unfold blockBytes
  rw [headerCounts_slice p inside]

theorem parseBlock_slice (p : Bytes) (bodyLen : Nat) {timeSize : Nat} {c : Counts}
    (counted : headerCounts p h = some c) (width : timeSize = 4 ∨ timeSize = 8) :
    parseBlock ((p.drop h).take (44 + c.timecnt * timeSize + c.timecnt + c.typecnt * 6)) 0 bodyLen
      timeSize = parseBlock p h bodyLen timeSize := by
  have times : ∀ i, i < c.timecnt → i * timeSize + timeSize ≤ c.timecnt * timeSize := fun i less => by
    rw [← Nat.succ_mul]
    exact Nat.mul_le_mul_right timeSize less
  unfold parseBlock
  rw [headerCounts_slice p (by omega), blockBytes_slice p timeSize (by omega), counted]
  rcases blockBytes p h timeSize with - | need
  · rfl
  dsimp only
  generalize c.timecnt * timeSize = total at times
  have flag : ∀ i k, i ∈ List.range c.typecnt → k < 6 →
      ((p.drop h).take (44 + total + c.timecnt + c.typecnt * 6)).getD
        (0 + 44 + total + c.timecnt + i * 6 + k) 0 =
      p.getD (h + 44 + total + c.timecnt + i * 6 + k) 0 := fun i k mem small => by
    have less := List.mem_range.mp mem
    rw [getD_slice p (by omega)]
    congr 1
    omega
  have types : readTypes ((p.drop h).take (44 + total + c.timecnt + c.typecnt * 6))
      (0 + 44 + total + c.timecnt) c.typecnt =
      readTypes p (h + 44 + total + c.timecnt) c.typecnt := by
    refine List.map_congr_left fun i mem => ?_
    have less := List.mem_range.mp mem
    unfold sbe32
    rw [be32_slice p (by omega), flag i 4 mem (by omega)]
    congr 5
    omega
  have transitions : readTransitions ((p.drop h).take (44 + total + c.timecnt + c.typecnt * 6))
      (0 + 44) (0 + 44 + total) timeSize c.timecnt =
      readTransitions p (h + 44) (h + 44 + total) timeSize c.timecnt := by
    refine List.map_congr_left fun i mem => ?_
    have less := List.mem_range.mp mem
    have inside := times i less
    unfold sbe32 sbe64
    rw [getD_slice p (by omega)]
    have place : h + (0 + 44 + total + i) = h + 44 + total + i := by omega
    rw [place]
    rcases width with rfl | rfl
    · rw [if_neg (by decide), if_neg (by decide), be32_slice p (by omega), Nat.zero_add,
        ← Nat.add_assoc]
    · rw [if_pos rfl, if_pos rfl, be32_slice p (by omega), be32_slice p (by omega), Nat.zero_add,
        ← Nat.add_assoc, ← Nat.add_assoc, ← Nat.add_assoc]
  have outside : (∃ i ∈ List.range c.typecnt, c.charcnt ≤
      (((p.drop h).take (44 + total + c.timecnt + c.typecnt * 6)).getD
        (0 + 44 + total + c.timecnt + i * 6 + 5) 0).toNat) ↔
      ∃ i ∈ List.range c.typecnt, c.charcnt ≤
        (p.getD (h + 44 + total + c.timecnt + i * 6 + 5) 0).toNat := by
    constructor
    · rintro ⟨i, mem, large⟩
      exact ⟨i, mem, by rwa [flag i 5 mem (by omega)] at large⟩
    · rintro ⟨i, mem, large⟩
      exact ⟨i, mem, by rwa [flag i 5 mem (by omega)]⟩
  simp only [types, transitions, outside]

/-- What `blockBytes` adds up is the length of the block. -/
theorem blockBytes_eq {c : Counts} (counted : headerCounts p h = some c) {timeSize need : Nat}
    (sized : blockBytes p h timeSize = some need) :
    need = c.timecnt * timeSize + c.timecnt + c.typecnt * 6 + c.charcnt +
      c.leapcnt * (timeSize + 4) + c.stdcnt + c.gmtcnt := by
  rw [blockBytes, counted, Option.bind_some] at sized
  dsimp only at sized
  split at sized
  · cases sized
  · exact (Option.some.inj sized).symm

theorem parseBlockIn_ok (bodyLen : Nat) {timeSize : Nat} (inside : h + 44 + bodyLen ≤ p.length)
    (width : timeSize = 4 ∨ timeSize = 8) :
    parseBlockIn p h bodyLen timeSize = .ok (parseBlock p h bodyLen timeSize) := by
  unfold parseBlockIn
  rw [ok_bind (bytesAt_ok (by omega)), headerCounts_slice p le_rfl, blockBytes_slice p timeSize le_rfl]
  rcases counted : headerCounts p h with - | c
  · unfold parseBlock
    rw [counted]
    rfl
  rcases sized : blockBytes p h timeSize with - | need
  · unfold parseBlock
    rw [counted, sized]
    rfl
  dsimp only
  by_cases short : bodyLen < need
  · unfold parseBlock
    rw [if_pos short, counted, sized]
    dsimp only
    rw [if_pos short]
    rfl
  · have whole := blockBytes_eq counted sized
    rw [if_neg short, ok_bind (bytesAt_ok (by omega)), parseBlock_slice p bodyLen counted width]
    rfl

/-- **Nothing outside the file is read.** -/
theorem parseMemoryIn_ok (p : Bytes) : parseMemoryIn p = .ok (parseMemory p) := by
  unfold parseMemoryIn parseMemory
  by_cases short : p.length < 44
  · rw [if_pos short, if_pos short]
    rfl
  rw [if_neg short, if_neg short, ok_bind (bytesAt_ok (by omega)), blockBytes_slice p 4 le_rfl]
  rcases blockBytes p 0 4 with - | first
  · rfl
  dsimp only
  by_cases beyond : p.length < 44 + first
  · rw [if_pos beyond, if_pos beyond]
    rfl
  have narrow := parseBlockIn_ok (p := p) (h := 0) first (by omega) (.inl rfl)
  rw [if_neg beyond, if_neg beyond, getD_slice p (by omega), Nat.zero_add]
  by_cases later : (p.getD 4 0 = 50 ∨ p.getD 4 0 = 51) ∧ 44 + first + 44 ≤ p.length
  · rw [if_pos later, ok_bind (bytesAt_ok later.2), List.take_take, blockBytes_slice p 8 le_rfl,
      show min 4 44 = 4 from rfl]
    by_cases magic : (p.drop (44 + first)).take 4 = [84, 90, 105, 102]
    · rw [if_pos magic, if_pos ⟨later.1, later.2, magic⟩]
      rcases blockBytes p (44 + first) 8 with - | second
      · rfl
      dsimp only
      split
      · rfl
      · exact parseBlockIn_ok second (by omega) (.inr rfl)
    · rw [if_neg magic, if_neg fun all => magic all.2.2]
      exact narrow
  · rw [if_neg later, if_neg fun all => later ⟨all.1, all.2.1⟩]
    exact narrow

end Slices

/-! ### The format -/

section Format

variable (p : Bytes) (h width : Nat)

/-- The `n` bytes at `i`, the most significant one first. -/
def number (i n : Nat) : Nat :=
  (List.range n).foldl (fun v k => v * 256 + (p.getD (i + k) 0).toNat) 0

/-- The same in two's complement. -/
def signed (i n : Nat) : Int := (BitVec.ofNat (8 * n) (number p i n)).toInt

/-- Times, types of transitions, types, designations, leap seconds and two rows of indicators. -/
def blockLength : Nat :=
  number p (h + 32) 4 * width + number p (h + 32) 4 + number p (h + 36) 4 * 6 +
    number p (h + 40) 4 + number p (h + 28) 4 * (width + 4) + number p (h + 24) 4 + number p (h + 20) 4

/-- The rules are those of the block behind the header at `h`, with times of `width` bytes. -/
structure Stored (rules : Rules) : Prop where
  magic : (p.drop h).take 4 = [84, 90, 105, 102]
  inside : h + 44 + blockLength p h width ≤ p.length
  transitions : rules.transitions = (List.range (number p (h + 32) 4)).map fun i =>
    ⟨signed p (h + 44 + i * width) width,
      (p.getD (h + 44 + number p (h + 32) 4 * width + i) 0).toNat⟩
  types : rules.types = (List.range (number p (h + 36) 4)).map fun i =>
    let info := h + 44 + number p (h + 32) 4 * width + number p (h + 32) 4 + i * 6
    ⟨signed p info 4, p.getD (info + 4) 0 ≠ 0⟩

/-- A file of version 2 or 3 with the header of a second block behind the first one. -/
def Second : Prop :=
  (p.getD 4 0 = 50 ∨ p.getD 4 0 = 51) ∧ 44 + blockLength p 0 4 + 44 ≤ p.length ∧
    (p.drop (44 + blockLength p 0 4)).take 4 = [84, 90, 105, 102]

end Format

section Parsed

variable {p : Bytes} {h width : Nat}

theorem be32_eq (p : Bytes) (i : Nat) : be32 p i = number p i 4 := by
  simp only [be32, number, List.range_succ, List.range_zero, List.nil_append, List.cons_append,
    List.foldl_cons, List.foldl_nil, Nat.add_zero]
  omega

theorem sbe64_eq (p : Bytes) (i : Nat) : sbe64 p i = signed p i 8 := by
  have words : be32 p i * 2 ^ 32 + be32 p (i + 4) = number p i 8 := by
    simp only [be32, number, List.range_succ, List.range_zero, List.nil_append, List.cons_append,
      List.foldl_cons, List.foldl_nil, Nat.add_zero, Nat.add_assoc, Nat.reduceAdd]
    omega
  unfold sbe64
  rw [words]
  rfl

theorem sbe32_eq (p : Bytes) (i : Nat) : sbe32 p i = signed p i 4 := by
  unfold sbe32
  rw [be32_eq]
  rfl

/-- What is counted is within the limits of the tables, and what the header says. -/
theorem headerCounts_eq {c : Counts} (counted : headerCounts p h = some c) :
    (p.drop h).take 4 = [84, 90, 105, 102] ∧ c.typecnt ≤ 16 ∧ c.timecnt ≤ 64 ∧
      c = ⟨number p (h + 32) 4, number p (h + 36) 4, number p (h + 40) 4, number p (h + 28) 4,
        number p (h + 24) 4, number p (h + 20) 4⟩ := by
  unfold headerCounts at counted
  split at counted
  · cases counted
  · rename_i magic
    dsimp only at counted
    split at counted
    · cases counted
    · rename_i accepted
      obtain rfl := Option.some.inj counted
      simp only [not_or, not_lt] at accepted
      exact ⟨not_not.mp magic, accepted.2.1, accepted.2.2.1, by simp only [be32_eq]⟩

theorem blockBytes_length {need : Nat} (sized : blockBytes p h width = some need) :
    need = blockLength p h width := by
  obtain ⟨c, counted, -⟩ := Option.bind_eq_some_iff.mp sized
  rw [blockBytes_eq counted sized, (headerCounts_eq counted).2.2.2]
  rfl

theorem parseBlock_stored {bodyLen : Nat} {rules : Rules}
    (parsed : parseBlock p h bodyLen width = some rules) (inside : h + 44 + bodyLen ≤ p.length)
    (known : width = 4 ∨ width = 8) :
    rules.types.length ≤ 16 ∧ rules.transitions.length ≤ 64 ∧ Stored p h width rules := by
  unfold parseBlock at parsed
  rcases counted : headerCounts p h with - | c
  · rw [counted] at parsed
    cases parsed
  rcases sized : blockBytes p h width with - | need
  · rw [counted, sized] at parsed
    cases parsed
  rw [counted, sized] at parsed
  dsimp only at parsed
  obtain ⟨magic, types, times, rfl⟩ := headerCounts_eq counted
  have length := blockBytes_length sized
  split at parsed
  · cases parsed
  rename_i enough
  split at parsed
  · cases parsed
  split at parsed
  · cases parsed
  split at parsed
  · obtain rfl := Option.some.inj parsed
    dsimp only
    unfold readTypes readTransitions
    rw [List.length_map, List.length_map, List.length_range, List.length_range]
    refine ⟨types, times, magic, by omega, List.map_congr_left fun i _ => ?_,
      List.map_congr_left fun i _ => by rw [sbe32_eq]⟩
    rcases known with rfl | rfl
    · rw [if_neg (by decide), sbe32_eq]
    · rw [if_pos rfl, sbe64_eq]
  · cases parsed

end Parsed

/-- **Parsing a TZif file.** All that is read is inside the file. What is accepted has its
transitions in order and its types in range, and is the block with times of 64 bits where there
is one, else the first block. -/
theorem tzif_parse (p : Bytes) : parseMemoryIn p = .ok (parseMemory p) ∧
    ∀ rules, parseMemory p = some rules →
      rules.Sound ∧ rules.types.length ≤ 16 ∧ rules.transitions.length ≤ 64 ∧
        (Second p → Stored p (44 + blockLength p 0 4) 8 rules) ∧
        (¬Second p → Stored p 0 4 rules) := by
  refine ⟨parseMemoryIn_ok p, fun rules parsed => ⟨parseMemory_sound parsed, ?_⟩⟩
  unfold parseMemory at parsed
  split at parsed
  · cases parsed
  rcases sized : blockBytes p 0 4 with - | first
  · rw [sized] at parsed
    cases parsed
  obtain rfl := blockBytes_length sized
  rw [sized] at parsed
  dsimp only at parsed
  split at parsed
  · cases parsed
  split at parsed
  · rename_i second
    rcases sized' : blockBytes p (44 + blockLength p 0 4) 8 with - | need
    · rw [sized'] at parsed
      cases parsed
    rw [sized'] at parsed
    dsimp only at parsed
    split at parsed
    · cases parsed
    · obtain ⟨types, times, stored⟩ := parseBlock_stored parsed (by omega) (.inr rfl)
      exact ⟨types, times, fun _ => stored, fun none_ => absurd second none_⟩
  · rename_i none_
    obtain ⟨types, times, stored⟩ := parseBlock_stored parsed (by omega) (.inl rfl)
    exact ⟨types, times, fun second => absurd second none_, fun _ => stored⟩

/-- A file that says it is of version 2 and has no second block: its only block is taken. -/
theorem first_block_of_version_2 :
    parseMemory (selftestZone.set 4 50) = some selftestRules ∧
      ¬∃ h, Stored (selftestZone.set 4 50) h 8 selftestRules := by
  refine ⟨by decide +kernel, ?_⟩
  rintro ⟨h, stored⟩
  have places : ∀ h, h < 26 → ((selftestZone.set 4 50).drop h).take 4 = [84, 90, 105, 102] → h = 0 := by
    decide
  have inside : h + 44 + blockLength (selftestZone.set 4 50) h 8 ≤ 69 := stored.inside
  obtain rfl := places h (by omega) stored.magic
  revert inside
  decide

end AtmKoala.Time
