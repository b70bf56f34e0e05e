import Mathlib.Logic.Relation
import AtmKoala.Package.Model

/-!
What `zstd_unpack_raw` reads.

* `FrameFits` asks that no sum of a position and a size that the scan of a frame meets
  reaches `2 ^ 32`.
* `unpack_iff`: these are exactly the frames that are unpacked without a read or a write
  outside, and to an end.
-/

namespace AtmKoala.Package

open Lib
open Relation (ReflTransGen)

theorem u32_of_lt {n : Nat} (below : n < 2 ^ 32) : u32 n = n := Nat.mod_eq_of_lt below

/-! ### Blocks -/

/-- The header of the block at `ip`. -/
def blockBits (src : Bytes) (ip : Nat) : Nat :=
  (src.getD ip 0).toNat + 256 * (src.getD (ip + 1) 0).toNat + 65536 * (src.getD (ip + 2) 0).toNat

/-- The block at a position of the frame, with another behind it; the second component
counts what has been unpacked. -/
def BlockStep (src : Bytes) (cap : Nat) (p q : Nat × Nat) : Prop :=
  p.1 + 3 ≤ src.length ∧ blockBits src p.1 % 2 = 0 ∧ p.2 + blockBits src p.1 / 8 ≤ cap ∧
    ((blockBits src p.1 / 2 % 4 = 0 ∧ p.1 + 3 + blockBits src p.1 / 8 ≤ src.length ∧
        q = (p.1 + 3 + blockBits src p.1 / 8, p.2 + blockBits src p.1 / 8)) ∨
      (blockBits src p.1 / 2 % 4 = 1 ∧ p.1 + 3 < src.length ∧
        q = (p.1 + 4, p.2 + blockBits src p.1 / 8)))

/-- A block ends below `2 ^ 32`. -/
def BlockFits (src : Bytes) (cap : Nat) (p : Nat × Nat) : Prop :=
  p.1 + 3 < 2 ^ 32 ∧
    (p.1 + 3 ≤ src.length → blockBits src p.1 / 2 % 4 = 0 → p.2 + blockBits src p.1 / 8 ≤ cap →
      p.1 + 3 + blockBits src p.1 / 8 < 2 ^ 32)

variable {src out tar : Bytes} {cap declared fuel ip : Nat} {r : Int × Bytes} {p q : Nat × Nat}

theorem blockBits_lt (src : Bytes) (ip : Nat) : blockBits src ip / 8 < 2 ^ 21 := by
  have a := (src.getD ip 0).toNat_lt
  have b := (src.getD (ip + 1) 0).toNat_lt
  have c := (src.getD (ip + 2) 0).toNat_lt
  unfold blockBits
  omega

theorem blockHeader_ok (small : src.length < 2 ^ 32) (inside : ip + 3 ≤ src.length) :
    blockHeader src ip = .ok (blockBits src ip) := by
  rw [blockHeader, u32_of_lt (by omega), u32_of_lt (by omega), byteAt_ok (by omega),
    byteAt_ok (by omega), byteAt_ok (by omega)]
  rfl

/-- A header is read inside the frame only. -/
theorem inside_of_blockHeader {bh : Nat} (small : src.length < 2 ^ 32) (le : ip ≤ src.length)
    (done : blockHeader src ip = .ok bh) : ip + 3 < 2 ^ 32 := by
  unfold blockHeader at done
  obtain ⟨a, first, done⟩ := bind_ok.mp done
  obtain ⟨b, second, done⟩ := bind_ok.mp done
  obtain ⟨c, third, done⟩ := bind_ok.mp done
  have insideA := inside_of_byteAt first
  have insideB := inside_of_byteAt second
  have insideC := inside_of_byteAt third
  unfold u32 at insideB insideC
  omega

/-- **One block** that fits: the frame ends here, or goes on behind it. -/
theorem zstdBlocks_cases (declared : Nat) (small : src.length < 2 ^ 32) (room : out.length ≤ cap)
    (capSmall : cap < 2 ^ 31) (fits : BlockFits src cap (ip, out.length)) :
    (∃ r : Int × Bytes, r.2.length ≤ cap ∧ (∀ q, ¬BlockStep src cap (ip, out.length) q) ∧
      ∀ fuel, zstdBlocks src cap declared (fuel + 1) ip out = .ok r) ∨
    ∃ q out', BlockStep src cap (ip, out.length) q ∧
      (∀ q', BlockStep src cap (ip, out.length) q' → q' = q) ∧ out'.length = q.2 ∧
      ∀ fuel, zstdBlocks src cap declared (fuel + 1) ip out =
        zstdBlocks src cap declared fuel q.1 out' := by
  obtain ⟨below, fits⟩ := fits
  have sizeLt := blockBits_lt src ip
  by_cases inside : ip + 3 ≤ src.length
  · have header := blockHeader_ok small inside
    have fits := fits inside
    simp only at fits
    have written : u32 (out.length + blockBits src ip / 8) = out.length + blockBits src ip / 8 :=
      u32_of_lt (by omega)
    have unfolded : ∀ fuel, zstdBlocks src cap declared (fuel + 1) ip out =
        (if blockBits src ip / 2 % 4 = 0 then
          if u32 (ip + 3 + blockBits src ip / 8) > src.length ∨
              out.length + blockBits src ip / 8 > cap then .ok (-5, out)
          else do
            let out ← emit cap out (← bytesAt src (ip + 3) (blockBits src ip / 8))
            if blockBits src ip % 2 = 1 then
              return (if declared ≠ 0 ∧ declared ≠ out.length then (-8, out) else (0, out))
            zstdBlocks src cap declared fuel (u32 (ip + 3 + blockBits src ip / 8)) out
        else if blockBits src ip / 2 % 4 = 1 then
          if ip + 3 ≥ src.length ∨ out.length + blockBits src ip / 8 > cap then .ok (-6, out)
          else do
            let v ← byteAt src (ip + 3)
            let out ← emit cap out (List.replicate (blockBits src ip / 8) v)
            if blockBits src ip % 2 = 1 then
              return (if declared ≠ 0 ∧ declared ≠ out.length then (-8, out) else (0, out))
            zstdBlocks src cap declared fuel (u32 (ip + 3 + 1)) out
        else .ok (-7, out)) := by
      intro fuel
      rw [zstdBlocks, u32_of_lt below, if_neg (by omega), ok_bind header]
      dsimp only
      rw [written]
      rfl
    unfold BlockStep
    simp only
    generalize blockBits src ip = bh at *
    by_cases raw : bh / 2 % 4 = 0
    · by_cases full : cap < out.length + bh / 8
      · refine .inl ⟨(-5, out), room, by omega, fun fuel => ?_⟩
        rw [unfolded, if_pos raw, if_pos (.inr full)]
      · have low := fits raw (by omega)
        by_cases long : src.length < ip + 3 + bh / 8
        · refine .inl ⟨(-5, out), room, by omega, fun fuel => ?_⟩
          rw [unfolded, if_pos raw, if_pos (.inl ((u32_of_lt low).symm ▸ long))]
        · have length : ((src.drop (ip + 3)).take (bh / 8)).length = bh / 8 := by
            rw [List.length_take, List.length_drop]
            omega
          have unfolded : ∀ fuel, zstdBlocks src cap declared (fuel + 1) ip out =
              (if bh % 2 = 1 then
                .ok (if declared ≠ 0 ∧ declared ≠ (out ++ (src.drop (ip + 3)).take (bh / 8)).length
                  then (-8, out ++ (src.drop (ip + 3)).take (bh / 8))
                  else (0, out ++ (src.drop (ip + 3)).take (bh / 8)))
              else zstdBlocks src cap declared fuel (ip + 3 + bh / 8)
                (out ++ (src.drop (ip + 3)).take (bh / 8))) := by
            intro fuel
            rw [unfolded, if_pos raw, u32_of_lt low, if_neg (by omega),
              ok_bind (bytesAt_ok (by omega)), ok_bind (emit_ok (by rw [length]; omega))]
            rfl
          by_cases last : bh % 2 = 1
          · refine .inl ⟨_, ?_, by omega, fun fuel => (unfolded fuel).trans (if_pos last)⟩
            split
            all_goals
              rw [List.length_append, length]
              omega
          · refine .inr ⟨(ip + 3 + bh / 8, out.length + bh / 8), _, ⟨inside, by omega, by omega,
              .inl ⟨raw, by omega, rfl⟩⟩, ?_, ?_, fun fuel => (unfolded fuel).trans (if_neg last)⟩
            · rintro q' ⟨-, -, -, ⟨-, -, rfl⟩ | ⟨rle, -, -⟩⟩
              · rfl
              · omega
            · rw [List.length_append, length]
    · by_cases rle : bh / 2 % 4 = 1
      · by_cases stop : ip + 3 ≥ src.length ∨ out.length + bh / 8 > cap
        · refine .inl ⟨(-6, out), room, by omega, fun fuel => ?_⟩
          rw [unfolded, if_neg raw, if_pos rle, if_pos stop]
        · have unfolded : ∀ fuel, zstdBlocks src cap declared (fuel + 1) ip out =
              (if bh % 2 = 1 then
                .ok (if declared ≠ 0 ∧
                    declared ≠ (out ++ List.replicate (bh / 8) (src.getD (ip + 3) 0)).length
                  then (-8, out ++ List.replicate (bh / 8) (src.getD (ip + 3) 0))
                  else (0, out ++ List.replicate (bh / 8) (src.getD (ip + 3) 0)))
              else zstdBlocks src cap declared fuel (ip + 3 + 1)
                (out ++ List.replicate (bh / 8) (src.getD (ip + 3) 0))) := by
            intro fuel
            rw [unfolded, if_neg raw, if_pos rle, u32_of_lt (n := ip + 3 + 1) (by omega),
              if_neg stop, ok_bind (byteAt_ok (by omega)),
              ok_bind (emit_ok (by rw [List.length_replicate]; omega))]
            rfl
          by_cases last : bh % 2 = 1
          · refine .inl ⟨_, ?_, by omega, fun fuel => (unfolded fuel).trans (if_pos last)⟩
            split
            all_goals
              rw [List.length_append, List.length_replicate]
              omega
          · refine .inr ⟨(ip + 3 + 1, out.length + bh / 8), _, ⟨inside, by omega, by omega,
              .inr ⟨rle, by omega, rfl⟩⟩, ?_, ?_, fun fuel => (unfolded fuel).trans (if_neg last)⟩
            · rintro q' ⟨-, -, -, ⟨raw', -, -⟩ | ⟨-, -, rfl⟩⟩
              · omega
              · rfl
            · rw [List.length_append, List.length_replicate]
      · refine .inl ⟨(-7, out), room, by omega, fun fuel => ?_⟩
        rw [unfolded, if_neg raw, if_neg rle]
  · refine .inl ⟨(-4, out), room, fun q step => inside step.1, fun fuel => ?_⟩
    rw [zstdBlocks, u32_of_lt below, if_pos (by omega)]
    rfl

/-- A block that is read without a fault fits. -/
theorem blockFits_of_ok (small : src.length < 2 ^ 32) (le : ip ≤ src.length)
    (capSmall : cap < 2 ^ 31) (done : zstdBlocks src cap declared fuel ip out = .ok r) :
    BlockFits src cap (ip, out.length) := by
  cases fuel with
  | zero => cases done
  | succ fuel =>
    rw [zstdBlocks] at done
    have sizeLt := blockBits_lt src ip
    by_cases inside : ip + 3 ≤ src.length
    · rw [u32_of_lt (by omega), if_neg (by omega), ok_bind (blockHeader_ok small inside)] at done
      refine ⟨by simp only; omega, fun _ raw full => ?_⟩
      simp only at raw full ⊢
      dsimp only at done
      rw [if_pos raw] at done
      split at done
      · rename_i long
        rw [u32_of_lt (n := out.length + _) (by omega)] at long
        unfold u32 at long
        omega
      · obtain ⟨bytes, read, -⟩ := bind_ok.mp done
        have := inside_of_bytesAt read
        omega
    · split at done
      · rename_i long
        refine ⟨?_, fun within => absurd within inside⟩
        simp only
        unfold u32 at long
        omega
      · obtain ⟨bh, read, -⟩ := bind_ok.mp done
        exact ⟨inside_of_blockHeader small le read, fun within => absurd within inside⟩

/-- All blocks behind one that has been read without a fault fit. -/
theorem blocksFit_of_ok (small : src.length < 2 ^ 32) (capSmall : cap < 2 ^ 31)
    (le : ip ≤ src.length) (room : out.length ≤ cap)
    (done : zstdBlocks src cap declared fuel ip out = .ok r)
    (way : ReflTransGen (BlockStep src cap) (ip, out.length) p) : BlockFits src cap p := by
  have reached : p.1 ≤ src.length ∧ ∃ fuel out', out'.length = p.2 ∧ p.2 ≤ cap ∧
      zstdBlocks src cap declared fuel p.1 out' = .ok r := by
    induction way with
    | refl => exact ⟨le, fuel, out, rfl, room, done⟩
    | @tail p q _ step ih =>
      obtain ⟨le, fuel, out', length, room, done⟩ := ih
      have fits := blockFits_of_ok small le capSmall done
      obtain ⟨i, k⟩ := p
      cases length
      refine ⟨?_, ?_⟩
      · obtain ⟨-, -, -, ⟨-, within, rfl⟩ | ⟨-, within, rfl⟩⟩ := step
        · exact within
        · exact within
      · cases fuel with
        | zero => cases done
        | succ fuel =>
          rcases zstdBlocks_cases declared small room capSmall fits with
            ⟨_, -, none_, -⟩ | ⟨q', out₂, step', only, length, next⟩
          · exact absurd step (none_ q)
          · cases only q step
            refine ⟨fuel, out₂, length, ?_, (next fuel).symm.trans done⟩
            obtain ⟨-, -, full, ⟨-, -, same⟩ | ⟨-, -, same⟩⟩ := step'
            · rw [same]
              exact full
            · rw [same]
              exact full
  obtain ⟨le, fuel, out', length, -, done⟩ := reached
  obtain ⟨i, k⟩ := p
  cases length
  exact blockFits_of_ok small le capSmall done

/-- **A frame of blocks that fit** is read to its end, with enough fuel. -/
theorem zstdBlocks_total (declared : Nat) (small : src.length < 2 ^ 32) (capSmall : cap < 2 ^ 31)
    (room : out.length ≤ cap)
    (fits : ∀ p, ReflTransGen (BlockStep src cap) (ip, out.length) p → BlockFits src cap p) :
    ∃ m r, r.2.length ≤ cap ∧ ∀ k, zstdBlocks src cap declared (m + k) ip out = .ok r := by
  induction measure : src.length - ip using Nat.strongRecOn generalizing ip out with
  | ind n ih =>
    rcases zstdBlocks_cases declared small room capSmall (fits _ .refl) with
      ⟨r, length, -, done⟩ | ⟨q, out', step, -, length, next⟩
    · exact ⟨1, r, length, fun k => by rw [Nat.add_comm, done]⟩
    · have ahead : src.length - q.1 < n ∧ q.2 ≤ cap := by
        obtain ⟨within, -, full, ⟨-, -, same⟩ | ⟨-, -, same⟩⟩ := step
        · rw [same]
          simp only at within full ⊢
          omega
        · rw [same]
          simp only at within full ⊢
          omega
      obtain ⟨m, r, length, done⟩ := ih _ ahead.1 (show out'.length ≤ cap from length ▸ ahead.2)
        (fun p way => fits p (.head step (by rwa [length] at way))) rfl
      exact ⟨m + 1, r, length, fun k => by rw [Nat.add_right_comm, next, done]⟩

/-- The fuel does not matter. -/
theorem zstdBlocks_det {fuel' : Nat} {r' : Int × Bytes} (small : src.length < 2 ^ 32)
    (capSmall : cap < 2 ^ 31) (le : ip ≤ src.length) (room : out.length ≤ cap)
    (done : zstdBlocks src cap declared fuel ip out = .ok r)
    (done' : zstdBlocks src cap declared fuel' ip out = .ok r') : r = r' := by
  induction fuel generalizing ip out fuel' with
  | zero => cases done
  | succ fuel ih =>
    cases fuel' with
    | zero => cases done'
    | succ fuel' =>
      rcases zstdBlocks_cases declared small room capSmall (blockFits_of_ok small le capSmall done)
        with ⟨s, -, -, same⟩ | ⟨q, out', step, -, length, next⟩
      · cases (same fuel).symm.trans done
        cases (same fuel').symm.trans done'
        rfl
      · have inside : q.1 ≤ src.length ∧ q.2 ≤ cap := by
          obtain ⟨-, -, full, ⟨-, within, same⟩ | ⟨-, within, same⟩⟩ := step
          · rw [same]
            exact ⟨within, full⟩
          · rw [same]
            exact ⟨within, full⟩
        exact ih inside.1 (length ▸ inside.2) ((next fuel).symm.trans done)
          ((next fuel').symm.trans done')

/-! ### Frames -/

/-- Where the blocks of a frame start. -/
def firstBlock (src : Bytes) : Option Nat :=
  let desc := (src.getD 4 0).toNat
  if 6 ≤ src.length ∧ src.take 4 = zstdMagic ∧
      5 + dictSize desc + contentSize desc ≤ src.length then
    some (5 + dictSize desc + contentSize desc)
  else none

/-- **The blocks of a frame** end below `2 ^ 32`. -/
def FrameFits (src : Bytes) : Prop :=
  ∀ ip ∈ firstBlock src, ∀ p,
    ReflTransGen (BlockStep src tzstMaxUnpacked) (ip, 0) p → BlockFits src tzstMaxUnpacked p

theorem dictSize_le (desc : Nat) : dictSize desc ≤ 4 := by
  unfold dictSize
  split <;> omega

theorem contentSize_le (desc : Nat) : contentSize desc ≤ 8 := by
  unfold contentSize
  split
  · split <;> omega
  · omega
  · omega
  · omega

theorem firstBlock_le (first : firstBlock src = some ip) : ip ≤ src.length := by
  unfold firstBlock at first
  dsimp only at first
  split at first
  · rename_i inside
    cases first
    exact inside.2.2
  · cases first

/-- The header of a frame is read without a fault. -/
theorem zstdUnpackRaw_cases (cap : Nat) (small : src.length < 2 ^ 32) :
    (∃ code : Int, code < 0 ∧ firstBlock src = none ∧
      ∀ fuel, zstdUnpackRaw fuel src cap = .ok (code, [])) ∨
    ∃ ip declared, firstBlock src = some ip ∧
      ∀ fuel, zstdUnpackRaw fuel src cap = zstdBlocks src cap declared fuel ip [] := by
  by_cases long : 6 ≤ src.length
  · have unfolded : ∀ fuel, zstdUnpackRaw fuel src cap =
        (if src.take 4 ≠ zstdMagic then .ok (-1, [])
        else if u32 (5 + dictSize (src.getD 4 0).toNat) > src.length then .ok (-2, [])
        else if u32 (5 + dictSize (src.getD 4 0).toNat + contentSize (src.getD 4 0).toNat) >
          src.length then .ok (-3, [])
        else do
          let declared := declaredSize (← bytesAt src (5 + dictSize (src.getD 4 0).toNat)
            (contentSize (src.getD 4 0).toNat))
          zstdBlocks src cap declared fuel
            (5 + dictSize (src.getD 4 0).toNat + contentSize (src.getD 4 0).toNat) []) := by
      intro fuel
      rw [zstdUnpackRaw, if_neg (by omega), ok_bind (bytesAt_ok (by omega)),
        ok_bind (byteAt_ok (by omega))]
      rfl
    have dict := dictSize_le (src.getD 4 0).toNat
    have content := contentSize_le (src.getD 4 0).toNat
    rw [u32_of_lt (by omega), u32_of_lt (by omega)] at unfolded
    unfold firstBlock
    dsimp only
    generalize (src.getD 4 0).toNat = desc at *
    by_cases magic : src.take 4 = zstdMagic
    · by_cases noDict : src.length < 5 + dictSize desc
      · refine .inl ⟨-2, by decide, if_neg (by omega), fun fuel => ?_⟩
        rw [unfolded, if_neg (not_not.mpr magic), if_pos noDict]
      · by_cases noContent : src.length < 5 + dictSize desc + contentSize desc
        · refine .inl ⟨-3, by decide, if_neg (by omega), fun fuel => ?_⟩
          rw [unfolded, if_neg (not_not.mpr magic), if_neg noDict, if_pos noContent]
        · refine .inr ⟨_, declaredSize ((src.drop (5 + dictSize desc)).take (contentSize desc)),
            if_pos ⟨long, magic, by omega⟩, fun fuel => ?_⟩
          rw [unfolded, if_neg (not_not.mpr magic), if_neg noDict, if_neg noContent,
            ok_bind (bytesAt_ok (by omega))]
    · refine .inl ⟨-1, by decide, if_neg fun all => magic all.2.1, fun fuel => ?_⟩
      rw [unfolded, if_pos magic]
  · refine .inl ⟨-1, by decide, ?_, fun fuel => ?_⟩
    · unfold firstBlock
      exact if_neg fun all => long all.1
    · rw [zstdUnpackRaw, if_pos (by omega)]
      rfl

/-- A frame that fits is unpacked, with enough fuel. -/
theorem unpack_total (small : src.length < 2 ^ 32) (fits : FrameFits src) :
    ∃ m r, r.2.length ≤ tzstMaxUnpacked ∧
      ∀ k, zstdUnpackRaw (m + k) src tzstMaxUnpacked = .ok r := by
  rcases zstdUnpackRaw_cases tzstMaxUnpacked small with
    ⟨code, -, -, same⟩ | ⟨ip, declared, first, same⟩
  · exact ⟨0, _, Nat.zero_le _, fun k => same _⟩
  · obtain ⟨m, r, length, done⟩ :=
      zstdBlocks_total declared small (by decide : tzstMaxUnpacked < 2 ^ 31)
        (show ([] : Bytes).length ≤ _ from Nat.zero_le _) (fits ip first)
    exact ⟨m, r, length, fun k => (same _).trans (done k)⟩

/-- **Frames** that are unpacked without a fault. -/
theorem unpack_iff (small : src.length < 2 ^ 32) :
    (∃ fuel r, zstdUnpackRaw fuel src tzstMaxUnpacked = .ok r) ↔ FrameFits src := by
  constructor
  · rintro ⟨fuel, r, done⟩ ip' mem p way
    rcases zstdUnpackRaw_cases tzstMaxUnpacked small with
      ⟨code, -, none_, -⟩ | ⟨ip, declared, first, same⟩
    · rw [none_] at mem
      cases mem
    · cases first.symm.trans mem
      rw [same] at done
      exact blocksFit_of_ok small (by decide) (firstBlock_le first) (Nat.zero_le _) done way
  · intro fits
    obtain ⟨m, r, -, done⟩ := unpack_total small fits
    exact ⟨m, r, done 0⟩

theorem unpack_det {fuel' : Nat} {r' : Int × Bytes} (small : src.length < 2 ^ 32)
    (done : zstdUnpackRaw fuel src tzstMaxUnpacked = .ok r)
    (done' : zstdUnpackRaw fuel' src tzstMaxUnpacked = .ok r') : r = r' := by
  rcases zstdUnpackRaw_cases tzstMaxUnpacked small with
    ⟨code, -, -, same⟩ | ⟨ip, declared, first, same⟩
  · cases (same fuel).symm.trans done
    cases (same fuel').symm.trans done'
    rfl
  · rw [same] at done done'
    exact zstdBlocks_det small (by decide) (firstBlock_le first)
      (show ([] : Bytes).length ≤ _ from Nat.zero_le _) done done'

/-- What is unpacked fits the workspace. -/
theorem length_unpack (small : src.length < 2 ^ 32)
    (done : zstdUnpackRaw fuel src tzstMaxUnpacked = .ok r) : r.2.length ≤ tzstMaxUnpacked := by
  obtain ⟨m, r', length, done'⟩ := unpack_total small ((unpack_iff small).mp ⟨fuel, r, done⟩)
  cases unpack_det small done (done' 0)
  exact length

end AtmKoala.Package
