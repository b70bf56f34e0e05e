import AtmKoala.Paging.Copy
import AtmKoala.Paging.Fresh

/-!
Writes of the kernel to mapped pages.

The loader and the set-up of the first stack write to a user space before it runs: page by
page, to the frames, whatever the rights of the pages are.

* `Stored pages byte va n m m'`: the bytes from `va` on are now `byte 0`, `byte 1`, …
* `storeMapped_spec`: the loop does this to a range that is mapped.
-/

namespace AtmKoala.Paging

open Lib

/-- The loop of `elf64_copy_to_mapped`, `elf64_zero_mapped` and `native_write_bytes`, which
is at byte `k` of what it writes; `fuel` is at least the number of bytes left. -/
def storeMapped (s : UserSpace) (byte : Nat → UInt8) : Nat → Memory → Nat → Nat → Nat → Memory × Int
  | 0, m, _, _, _ => (m, 0)
  | fuel + 1, m, va, k, n =>
    if n = 0 then (m, 0)
    else
      match pagingUserTranslate s va with
      | none => (m, -1)
      | some (phys, _) =>
        let room := atmPageSize - va % atmPageSize
        let take := if n < room then n else room
        let m : Memory := fun x => if phys ≤ x ∧ x < phys + take then byte (k + (x - phys)) else m x
        storeMapped s byte fuel m ((va + take) % 2 ^ 64) (k + take) (n - take)

/-- The bytes of the range have been written, and nothing else. -/
structure Stored (pages : PageMap) (byte : Nat → UInt8) (va n : Nat) (m m' : Memory) : Prop where
  stored : ∀ i < n, m' (physical pages (va + i)) = byte i
  kept : ∀ p, (∀ i < n, p ≠ physical pages (va + i)) → m' p = m p

variable {s : UserSpace} {pages : PageMap} {byte : Nat → UInt8} {va k n fuel : Nat} {m m' m'' : Memory}

theorem Stored.nothing (pages : PageMap) (byte : Nat → UInt8) (va : Nat) (m : Memory) :
    Stored pages byte va 0 m m :=
  ⟨fun _ less => absurd less (Nat.not_lt_zero _), fun _ _ => rfl⟩

/-- A range of user addresses that are all mapped. -/
def AllMapped (pages : PageMap) (va n : Nat) : Prop := ∀ i < n, ∃ x, pages (pageBase (va + i)) = some x

/-- Two writes one behind the other. -/
theorem Stored.append {j : Nat} (shows_ : Shows s pages) (unrelated : Unrelated pages)
    (mapped : AllMapped pages va (j + n)) (first : Stored pages byte va j m m')
    (second : Stored pages (fun i => byte (j + i)) (va + j) n m' m'') :
    Stored pages byte va (j + n) m m'' := by
  refine ⟨fun i less => ?_, fun p outside => ?_⟩
  · by_cases early : i < j
    · rw [second.kept, first.stored i early]
      intro l bound same
      obtain ⟨x, there⟩ := mapped i less
      obtain ⟨y, there'⟩ := mapped (j + l) (by omega)
      rw [Nat.add_assoc] at same
      have := physical_inj shows_ unrelated there there' same
      omega
    · have stored := second.stored (i - j) (by omega)
      have at_ : va + j + (i - j) = va + i := by omega
      have of_ : j + (i - j) = i := by omega
      rwa [at_, of_] at stored
  · rw [second.kept p, first.kept p]
    · exact fun i less => outside i (by omega)
    · intro i less
      rw [Nat.add_assoc]
      exact outside (j + i) (by omega)

/-- **The loop** writes a range that is mapped. -/
theorem storeMapped_spec (shows_ : Shows s pages) (unrelated : Unrelated pages)
    (mapped : AllMapped pages va n) (enough : n ≤ fuel) :
    (storeMapped s byte fuel m va k n).2 = 0 ∧
      Stored pages (fun i => byte (k + i)) va n m (storeMapped s byte fuel m va k n).1 := by
  induction fuel generalizing m va k n with
  | zero =>
    obtain rfl := Nat.le_zero.mp enough
    exact ⟨rfl, .nothing ..⟩
  | succ fuel ih =>
    unfold storeMapped
    by_cases done : n = 0
    · rw [if_pos done, done]
      exact ⟨rfl, .nothing ..⟩
    rw [if_neg done]
    obtain ⟨x, there⟩ := mapped 0 (Nat.pos_of_ne_zero done)
    rw [Nat.add_zero] at there
    obtain ⟨e, translated, -⟩ := shows_.translate there
    rw [translated]
    dsimp only
    have room := offset_lt va
    generalize piece : (if n < atmPageSize - va % atmPageSize then n else atmPageSize - va % atmPageSize) = j
    have positive : 0 < j := by
      split at piece <;> omega
    have short : j ≤ n := by
      split at piece <;> omega
    have onPage : j ≤ atmPageSize - va % atmPageSize := by
      split at piece <;> omega
    have phys : ∀ i < j, physical pages (va + i) = x.frame + va % atmPageSize + i :=
      fun i less => physical_piece there (by omega)
    -- the piece on the first page
    have first : Stored pages (fun i => byte (k + i)) va j m fun y =>
        if x.frame + va % atmPageSize ≤ y ∧ y < x.frame + va % atmPageSize + j then
          byte (k + (y - (x.frame + va % atmPageSize))) else m y := by
      refine ⟨fun i less => ?_, fun p outside => if_neg fun inside => ?_⟩
      · rw [phys i less]
        rw [if_pos (by omega)]
        congr 2
        omega
      · refine outside (p - (x.frame + va % atmPageSize)) (by omega) ?_
        rw [phys _ (by omega)]
        omega
    -- the others
    have below : va + j < 2 ^ 64 := by
      obtain ⟨y, last⟩ := mapped (n - 1) (by omega)
      have := window_iff.mp (shows_.window last)
      omega
    rw [Nat.mod_eq_of_lt below]
    have rest : AllMapped pages (va + j) (n - j) := by
      intro i less
      rw [Nat.add_assoc]
      exact mapped (j + i) (by omega)
    obtain ⟨ended, stored⟩ := ih (k := k + j) (m := fun y =>
        if x.frame + va % atmPageSize ≤ y ∧ y < x.frame + va % atmPageSize + j then
          byte (k + (y - (x.frame + va % atmPageSize))) else m y) rest (by omega)
    refine ⟨ended, ?_⟩
    have whole : j + (n - j) = n := by omega
    have shift : (fun i => byte (k + j + i)) = fun i => byte (k + (j + i)) := by
      funext i
      rw [Nat.add_assoc]
    rw [shift] at stored
    have both := first.append shows_ unrelated (by rwa [whole]) stored
    rwa [whole] at both

/-- What a program finds at the addresses that were written, and at the others. -/
theorem Stored.userByte (stored : Stored pages byte va n m m') (shows_ : Shows s pages)
    (unrelated : Unrelated pages) (mapped : AllMapped pages va n) :
    (∀ i < n, userByte pages m' (va + i) = some (byte i)) ∧
      ∀ a, a < va ∨ va + n ≤ a → Paging.userByte pages m' a = Paging.userByte pages m a := by
  refine ⟨fun i less => ?_, fun a outside => ?_⟩
  · obtain ⟨x, there⟩ := mapped i less
    rw [userByte_eq there, stored.stored i less]
  · cases at_ : pages (pageBase a) with
    | none =>
      unfold Paging.userByte
      rw [at_]
      rfl
    | some y =>
      rw [userByte_eq at_, userByte_eq at_, stored.kept]
      intro i less same
      obtain ⟨x, there⟩ := mapped i less
      have := physical_inj shows_ unrelated at_ there same
      omega

end AtmKoala.Paging
