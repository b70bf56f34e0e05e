import AtmKoala.Package.Frame

/-!
What `tzst_parse` reads.

* `Parses` is the property: the parser ends, stays inside its buffers, and hands out entries
  that lie in the archive, at growing positions.
* `ArchiveFits` asks that no header that the scan comes to has a size that takes its end to
  `2 ^ 32`, and that the names end inside the archive.
* `parses_iff`: with `FrameFits` these are exactly the inputs with the property.
* `octal_loops`: an entry of size `2 ^ 32 - 512` is followed by itself.
-/

namespace AtmKoala.Package

open Lib
open Relation (ReflTransGen)

variable {src tar s : Bytes} {pos fuel d sz : Nat}

/-! ### Names -/

/-- `tar_safe_name` comes to an end: there is a NUL, a `/` at the front or a component `..`. -/
def NameEnds (s : Bytes) : Prop :=
  0 ∈ s ∨ s.head? = some slashByte ∨
    ∃ pre post, s = pre ++ dotByte :: dotByte :: slashByte :: post ∧
      (pre = [] ∨ pre.getLast? = some slashByte)

/-- The same behind a byte. -/
def EndsFrom (prev : Option UInt8) (s : Bytes) : Prop :=
  0 ∈ s ∨ ∃ pre post, s = pre ++ dotByte :: dotByte :: slashByte :: post ∧
    ((pre = [] ∧ (prev = none ∨ prev = some slashByte)) ∨ pre.getLast? = some slashByte)

theorem endsFrom_cons {prev : Option UInt8} {c : UInt8} (live : c ≠ 0)
    (other : ¬((prev = none ∨ prev = some slashByte) ∧
      ∃ post, c :: s = dotByte :: dotByte :: slashByte :: post)) :
    EndsFrom prev (c :: s) ↔ EndsFrom (some c) s := by
  constructor
  · rintro (mem | ⟨pre, post, same, at_⟩)
    · exact .inl ((List.mem_cons.mp mem).resolve_left live.symm)
    · cases pre with
      | nil =>
        rcases at_ with ⟨-, at_⟩ | at_
        · exact absurd ⟨at_, post, same⟩ other
        · cases at_
      | cons a pre =>
        obtain ⟨rfl, tail⟩ := List.cons.inj same
        refine .inr ⟨pre, post, tail, ?_⟩
        rcases at_ with ⟨none_, -⟩ | at_
        · cases none_
        · cases pre with
          | nil => exact .inl ⟨rfl, .inr at_⟩
          | cons b pre => exact .inr at_
  · rintro (mem | ⟨pre, post, same, at_⟩)
    · exact .inl (List.mem_cons_of_mem _ mem)
    · refine .inr ⟨c :: pre, post, by rw [same]; rfl, .inr ?_⟩
      rcases at_ with ⟨rfl, at_⟩ | at_
      · rcases at_ with none_ | same
        · cases none_
        · exact same
      · cases pre with
        | nil => cases at_
        | cons b pre => exact at_

/-- The loop of `tar_safe_name` stays inside exactly if it comes to an end. -/
theorem safeFrom_ok (prev : Option UInt8) (s : Bytes) :
    (∃ b, safeFrom prev s = .ok b) ↔ EndsFrom prev s := by
  induction s generalizing prev with
  | nil =>
    constructor
    · rintro ⟨_, done⟩
      cases done
    · rintro (mem | ⟨pre, post, same, -⟩)
      · cases mem
      · cases pre <;> cases same
  | cons c rest ih =>
    by_cases stop : c = 0
    · subst stop
      exact ⟨fun _ => .inl List.mem_cons_self, fun _ => ⟨true, by rw [safeFrom.eq_def]; rfl⟩⟩
    by_cases dot : c = dotByte
    · subst dot
      cases rest with
      | nil =>
        constructor
        · rintro ⟨_, done⟩
          cases done
        · rintro (mem | ⟨pre, post, same, -⟩)
          · exact absurd mem (by decide)
          · have lengths := congrArg List.length same
            simp only [List.length_append, List.length_cons, List.length_nil] at lengths
            omega
      | cons c' rest =>
        have go : ¬(c' = dotByte ∧ (prev = none ∨ prev = some slashByte)) →
            ((∃ b, safeFrom prev (dotByte :: c' :: rest) = .ok b) ↔
              EndsFrom prev (dotByte :: c' :: rest)) := by
          intro other
          rw [safeFrom.eq_def]
          dsimp only
          rw [if_neg stop, if_pos rfl, if_neg other, ih, endsFrom_cons stop]
          rintro ⟨at_, post, same⟩
          exact other ⟨(List.cons.inj (List.cons.inj same).2).1, at_⟩
        by_cases both : c' = dotByte ∧ (prev = none ∨ prev = some slashByte)
        · obtain ⟨rfl, at_⟩ := both
          cases rest with
          | nil =>
            constructor
            · rintro ⟨_, done⟩
              rw [safeFrom.eq_def] at done
              dsimp only at done
              rw [if_neg stop, if_pos rfl, if_pos ⟨rfl, at_⟩] at done
              cases done
            · rintro (mem | ⟨pre, post, same, -⟩)
              · exact absurd mem (by decide)
              · have lengths := congrArg List.length same
                simp only [List.length_append, List.length_cons, List.length_nil] at lengths
                omega
          | cons e rest =>
            rw [safeFrom.eq_def]
            dsimp only
            rw [if_neg stop, if_pos rfl, if_pos ⟨rfl, at_⟩]
            by_cases last : e = slashByte ∨ e = 0
            · rw [if_pos last]
              refine ⟨fun _ => ?_, fun _ => ⟨false, rfl⟩⟩
              rcases last with rfl | rfl
              · exact .inr ⟨[], rest, rfl, .inl ⟨rfl, at_⟩⟩
              · exact .inl (by simp)
            · rw [if_neg last, ih]
              refine (endsFrom_cons stop ?_).symm
              rintro ⟨-, post, same⟩
              exact last (.inl (List.cons.inj (List.cons.inj (List.cons.inj same).2).2).1)
        · exact go both
    · have unfolded : safeFrom prev (c :: rest) = safeFrom (some c) rest := by
        rw [safeFrom.eq_def]
        dsimp only
        rw [if_neg stop, if_neg dot]
      rw [unfolded, ih, endsFrom_cons stop]
      rintro ⟨-, post, same⟩
      exact dot (List.cons.inj same).1

/-- **The names** that `tar_safe_name` reads inside the archive. -/
theorem tarSafeName_ok : (∃ b, tarSafeName s = .ok b) ↔ NameEnds s := by
  cases s with
  | nil =>
    constructor
    · rintro ⟨_, done⟩
      cases done
    · rintro (mem | same | ⟨pre, post, same, -⟩)
      · cases mem
      · cases same
      · cases pre <;> cases same
  | cons c rest =>
    rw [tarSafeName]
    by_cases front : c = 0 ∨ c = slashByte
    · rw [if_pos front]
      refine ⟨fun _ => ?_, fun _ => ⟨false, rfl⟩⟩
      rcases front with rfl | rfl
      · exact .inl List.mem_cons_self
      · exact .inr (.inl rfl)
    · rw [if_neg front, safeFrom_ok]
      constructor
      · rintro (mem | ⟨pre, post, same, ⟨none_, -⟩ | at_⟩)
        · exact .inl mem
        · exact .inr (.inr ⟨pre, post, same, .inl none_⟩)
        · exact .inr (.inr ⟨pre, post, same, .inr at_⟩)
      · rintro (mem | same | ⟨pre, post, same, none_ | at_⟩)
        · exact .inl mem
        · exact absurd (.inr (Option.some.inj same)) front
        · exact .inr ⟨pre, post, same, .inl ⟨none_, .inl rfl⟩⟩
        · exact .inr ⟨pre, post, same, .inr at_⟩

/-- The loop finds a name safe at its NUL. -/
theorem mem_of_safeFrom {prev : Option UInt8} (safe : safeFrom prev s = .ok true) : 0 ∈ s := by
  induction s generalizing prev with
  | nil => cases safe
  | cons c rest ih =>
    by_cases stop : c = 0
    · exact stop ▸ List.mem_cons_self
    · rw [safeFrom.eq_def] at safe
      dsimp only at safe
      rw [if_neg stop] at safe
      split at safe
      · cases rest with
        | nil => cases safe
        | cons c' rest =>
          dsimp only at safe
          split at safe
          · cases rest with
            | nil => cases safe
            | cons e rest =>
              dsimp only at safe
              split at safe
              · cases safe
              · exact List.mem_cons_of_mem _ (ih safe)
          · exact List.mem_cons_of_mem _ (ih safe)
      · exact List.mem_cons_of_mem _ (ih safe)

theorem mem_of_tarSafeName (safe : tarSafeName s = .ok true) : 0 ∈ s := by
  cases s with
  | nil => cases safe
  | cons c rest =>
    rw [tarSafeName] at safe
    split at safe
    · cases safe
    · exact mem_of_safeFrom safe

theorem cstr_ok (mem : 0 ∈ s) : ∃ n, cstr s = .ok n := by
  induction s with
  | nil => cases mem
  | cons c rest ih =>
    rw [cstr]
    split
    · exact ⟨[], rfl⟩
    · rename_i live
      obtain ⟨n, done⟩ := ih ((List.mem_cons.mp mem).resolve_left fun same => live same.symm)
      exact ⟨c :: n, by rw [done]; rfl⟩

/-! ### Headers -/

/-- A header that is not the end of the archive. -/
def IsHeader (tar : Bytes) (pos : Nat) : Prop :=
  pos + tarBlock ≤ tar.length ∧ tarZero tar pos = .ok false ∧
    (tar.drop (pos + 257)).take 5 = ustarMagic

/-- What `tar_octal` makes of the size in a header. -/
def sizeField (tar : Bytes) (pos : Nat) : Nat := (tarOctal tar (pos + 124) 12).toOption.getD 0

instance (tar : Bytes) (pos : Nat) : Decidable (IsHeader tar pos) :=
  inferInstanceAs (Decidable (_ ∧ _ = _ ∧ _))

/-- **A header fits**: the entry ends below `2 ^ 32`, and its name before the archive does. -/
def HeaderFits (tar : Bytes) (pos : Nat) : Prop :=
  IsHeader tar pos →
    pos + tarBlock + sizeField tar pos < 2 ^ 32 ∧
      (pos + tarBlock + sizeField tar pos ≤ tar.length → NameEnds (tar.drop pos))

/-- The entry at a position, with the scan going on behind it; the second component holds the
names there have been. -/
def EntryStep (tar : Bytes) (p q : Nat × List Bytes) : Prop :=
  IsHeader tar p.1 ∧ p.1 + tarBlock + sizeField tar p.1 ≤ tar.length ∧
    tarSafeName (tar.drop p.1) = .ok true ∧
    ∃ n, cstr (tar.drop p.1) = .ok n ∧ ¬(n ∈ [controlName, manifestName] ∧ n ∈ p.2) ∧
      q = (p.1 + tarBlock + (sizeField tar p.1 + 511) / tarBlock * tarBlock, n :: p.2)

/-- **The headers of an archive** that the scan comes to fit. -/
def ArchiveFits (tar : Bytes) : Prop :=
  ∀ p, ReflTransGen (EntryStep tar) (0, []) p → HeaderFits tar p.1

theorem zeroBytes_ok {n : Nat} (long : n ≤ s.length) : ∃ b, zeroBytes n s = .ok b := by
  induction n generalizing s with
  | zero => exact ⟨true, rfl⟩
  | succ n ih =>
    cases s with
    | nil => cases long
    | cons b rest =>
      rw [zeroBytes]
      split
      · exact ⟨false, rfl⟩
      · exact ih (Nat.le_of_succ_le_succ long)

theorem octalDigits_ok {n v : Nat} (long : n ≤ s.length) : ∃ w, octalDigits n v s = .ok w := by
  induction n generalizing s v with
  | zero => exact ⟨v, rfl⟩
  | succ n ih =>
    cases s with
    | nil => cases long
    | cons b rest =>
      rw [octalDigits]
      split
      · exact ⟨v, rfl⟩
      · split
        · exact ⟨v, rfl⟩
        · exact ih (Nat.le_of_succ_le_succ long)

/-- What is not a header ends the scan. -/
theorem tarNext_stop (small : tar.length < 2 ^ 31) (near : pos ≤ tar.length + 511)
    (none_ : ¬IsHeader tar pos) : ∃ code, tarNext tar pos = .ok (.stop code) := by
  unfold tarNext
  by_cases inside : pos + tarBlock ≤ tar.length
  · rw [u32_of_lt (by omega), if_neg (by omega)]
    obtain ⟨zero, done⟩ := zeroBytes_ok (s := tar.drop pos) (n := tarBlock)
      (by rw [List.length_drop]; omega)
    rw [ok_bind (show tarZero tar pos = .ok zero from done)]
    cases zero with
    | true => exact ⟨0, rfl⟩
    | false =>
      unfold tarBlock at inside
      dsimp only
      rw [if_neg Bool.false_ne_true, ok_bind (bytesAt_ok (by omega)),
        if_pos fun magic => none_ ⟨inside, done, magic⟩]
      exact ⟨-1, rfl⟩
  · rw [u32_of_lt (by unfold tarBlock; omega), if_pos (by omega)]
    exact ⟨0, rfl⟩

/-- A header gives its entry, unless that is longer than the archive. -/
theorem tarNext_header (small : tar.length < 2 ^ 31) (header : IsHeader tar pos) :
    tarNext tar pos = .ok (
      if u32 (pos + tarBlock + sizeField tar pos) > tar.length then .stop (-2)
      else .entry pos (pos + tarBlock) (sizeField tar pos) (tar.getD (pos + 156) 0)
        (u32 (pos + tarBlock + align512 (sizeField tar pos)))) := by
  obtain ⟨inside, zero, magic⟩ := header
  have block : tarBlock = 512 := rfl
  obtain ⟨size, octal⟩ := octalDigits_ok (s := tar.drop (pos + 124)) (n := 12) (v := 0)
    (by rw [List.length_drop]; omega)
  have field : sizeField tar pos = size := by
    rw [sizeField, tarOctal, octal]
    rfl
  rw [tarNext, u32_of_lt (by omega), if_neg (by omega), ok_bind zero, if_neg Bool.false_ne_true,
    ok_bind (bytesAt_ok (by omega)), if_neg (not_not.mpr magic),
    ok_bind (show tarOctal tar (pos + 124) 12 = .ok size from octal), field]
  dsimp only
  split
  · rfl
  · rw [ok_bind (byteAt_ok (by omega))]
    rfl

/-! ### The loop of the parser -/

/-- **Where the scan is**: the archive it is in, and what it has seen and handed out. -/
structure Scan (tar : Bytes) (pos : Nat) (seen : List Bytes) (p : Parse) : Prop where
  archive : p.pkg.tar = tar
  near : pos ≤ tar.length + 511
  control : p.control.isSome = true ↔ controlName ∈ seen
  manifest : p.manifest.isSome = true ↔ manifestName ∈ seen
  text : ∀ {d sz}, p.control = some (d, sz) → d + sz ≤ tar.length
  inside : ∀ e ∈ p.handed, e.data + e.size ≤ tar.length
  behind : ∀ e ∈ p.handed, e.pos < pos
  order : p.handed.Pairwise fun a b => a.pos < b.pos

/-- The entries lie in the archive, at growing positions. -/
def InOrder (tar : Bytes) (handed : List Handed) : Prop :=
  (∀ e ∈ handed, e.data + e.size ≤ tar.length) ∧ handed.Pairwise fun a b => a.pos < b.pos

variable {p p' : Parse} {n : Bytes} {t : UInt8} {seen : List Bytes} {code : Int}

@[simp] theorem countFile_fields :
    (countFile p t).pkg.tar = p.pkg.tar ∧ (countFile p t).control = p.control ∧
      (countFile p t).manifest = p.manifest ∧ (countFile p t).handed = p.handed := by
  unfold countFile
  split <;> exact ⟨rfl, rfl, rfl, rfl⟩

@[simp] theorem countPayload_fields :
    (countPayload p n t).pkg.tar = p.pkg.tar ∧ (countPayload p n t).control = p.control ∧
      (countPayload p n t).manifest = p.manifest ∧ (countPayload p n t).handed = p.handed := by
  unfold countPayload
  split <;> exact ⟨rfl, rfl, rfl, rfl⟩

/-- An entry does not change what has been handed out. -/
theorem handed_takeMeta (done : takeMeta p n d sz = .ok (.ok p')) :
    p'.handed = p.handed ∧ p'.pkg.tar = p.pkg.tar := by
  unfold takeMeta at done
  split at done
  · split at done
    · cases done
    · cases done
      exact ⟨rfl, rfl⟩
  · split at done
    · split at done
      · cases done
      · cases done
        exact ⟨rfl, rfl⟩
    · split at done
      · generalize bytesAt p.pkg.tar d _ = name at done
        cases name with
        | error e => cases done
        | ok name =>
          cases done
          exact ⟨rfl, rfl⟩
      · cases done
        exact ⟨rfl, rfl⟩

theorem handed_parseEntry (done : parseEntry p n d sz t = .ok (.ok p')) :
    p'.handed = p.handed ∧ p'.pkg.tar = p.pkg.tar := by
  unfold parseEntry at done
  cases mid : takeMeta (countFile p t) n d sz with
  | error e =>
    rw [mid] at done
    cases done
  | ok r =>
    rw [mid] at done
    cases r with
    | error code => cases done
    | ok p₁ =>
      cases done
      obtain ⟨handed, tar⟩ := handed_takeMeta mid
      obtain ⟨tar', -, -, handed'⟩ := countPayload_fields (p := p₁) (n := n) (t := t)
      obtain ⟨tar₀, -, -, handed₀⟩ := countFile_fields (p := p) (t := t)
      exact ⟨handed'.trans (handed.trans handed₀), tar'.trans (tar.trans tar₀)⟩

/-- **One entry** that lies in the archive: a control or manifest that has been seen ends the
scan, everything else is taken in. -/
theorem takeMeta_cases (n : Bytes) {next : Nat} (scan : Scan tar pos seen p)
    (fits : d + sz ≤ tar.length) (near : next ≤ tar.length + 511) (ahead : pos ≤ next) :
    (∃ code : Int, code < 0 ∧ (n ∈ [controlName, manifestName] ∧ n ∈ seen) ∧
      takeMeta p n d sz = .ok (.error code)) ∨
    ∃ p', ¬(n ∈ [controlName, manifestName] ∧ n ∈ seen) ∧
      takeMeta p n d sz = .ok (.ok p') ∧ Scan tar next (n :: seen) p' := by
  have behind : ∀ e ∈ p.handed, e.pos < next := fun e mem => (scan.behind e mem).trans_le ahead
  have differ : controlName ≠ manifestName := by decide
  unfold takeMeta
  by_cases control : n = controlName
  · rw [if_pos control]
    by_cases again : p.control.isSome = true
    · rw [if_pos again]
      exact .inl ⟨-5, by decide, ⟨by simp [control], control ▸ scan.control.mp again⟩, rfl⟩
    · rw [if_neg again]
      refine .inr ⟨_, fun both => again (scan.control.mpr (control ▸ both.2)), rfl, scan.archive,
        near, ?_, ?_, ?_, scan.inside, behind, scan.order⟩
      · simp [control]
      · rw [scan.manifest, List.mem_cons, control]
        simp [differ.symm]
      · rintro d' sz' ⟨⟩
        exact fits
  · by_cases manifest : n = manifestName
    · rw [if_neg control, if_pos manifest]
      by_cases again : p.manifest.isSome = true
      · rw [if_pos again]
        exact .inl ⟨-6, by decide, ⟨by simp [manifest], manifest ▸ scan.manifest.mp again⟩, rfl⟩
      · rw [if_neg again]
        refine .inr ⟨_, fun both => again (scan.manifest.mpr (manifest ▸ both.2)), rfl,
          scan.archive, near, ?_, ?_, scan.text, scan.inside, behind, scan.order⟩
        · rw [scan.control, List.mem_cons, manifest]
          simp [differ]
        · simp [manifest]
    · rw [if_neg control, if_neg manifest]
      have new : ¬(n ∈ [controlName, manifestName] ∧ n ∈ seen) := by
        simp [control, manifest]
      have scan' : ∀ name, Scan tar next (n :: seen) { p with pkg.packageName := name } := by
        intro name
        refine ⟨scan.archive, near, ?_, ?_, scan.text, scan.inside, behind, scan.order⟩
        · rw [scan.control, List.mem_cons, or_iff_right (Ne.symm control)]
        · rw [scan.manifest, List.mem_cons, or_iff_right (Ne.symm manifest)]
      by_cases name : n = ascii "META/name" ∧ sz ≠ 0
      · rw [if_pos name, scan.archive, bytesAt_ok (by split <;> unfold tzstNameMax at * <;> omega)]
        exact .inr ⟨_, new, rfl, scan' _⟩
      · rw [if_neg name]
        exact .inr ⟨_, new, rfl, scan' p.pkg.packageName⟩

theorem Scan.congr (scan : Scan tar pos seen p) (tars : p'.pkg.tar = p.pkg.tar)
    (controls : p'.control = p.control) (manifests : p'.manifest = p.manifest)
    (handed : p'.handed = p.handed) : Scan tar pos seen p' := by
  refine ⟨tars.trans scan.archive, scan.near, ?_, ?_, ?_, ?_, ?_, ?_⟩
  · rw [controls]
    exact scan.control
  · rw [manifests]
    exact scan.manifest
  · rw [controls]
    exact scan.text
  all_goals rw [handed]
  exacts [scan.inside, scan.behind, scan.order]

theorem parseEntry_cases (t : UInt8) (n : Bytes) {next : Nat} (scan : Scan tar pos seen p)
    (fits : d + sz ≤ tar.length) (near : next ≤ tar.length + 511) (ahead : pos ≤ next) :
    (∃ code : Int, code < 0 ∧ (n ∈ [controlName, manifestName] ∧ n ∈ seen) ∧
      parseEntry p n d sz t = .ok (.error code)) ∨
    ∃ p', ¬(n ∈ [controlName, manifestName] ∧ n ∈ seen) ∧
      parseEntry p n d sz t = .ok (.ok p') ∧ Scan tar next (n :: seen) p' := by
  obtain ⟨tars, controls, manifests, handed⟩ := countFile_fields (p := p) (t := t)
  unfold parseEntry
  rcases takeMeta_cases n (scan.congr tars controls manifests handed) fits near ahead with
    ⟨code, negative, seen, done⟩ | ⟨p₁, new, done, scan₁⟩
  · rw [done]
    exact .inl ⟨code, negative, seen, rfl⟩
  · rw [done]
    obtain ⟨tars, controls, manifests, handed⟩ := countPayload_fields (p := p₁) (n := n) (t := t)
    exact .inr ⟨_, new, rfl, scan₁.congr tars controls manifests handed⟩

/-- What has been handed out stays. -/
theorem handed_parseLoop (done : parseLoop fuel pos p = .ok (code, p')) :
    p.handed <+: p'.handed ∧ p'.pkg.tar = p.pkg.tar := by
  induction fuel generalizing pos p with
  | zero => cases done
  | succ fuel ih =>
    rw [parseLoop] at done
    obtain ⟨step, -, done⟩ := bind_ok.mp done
    cases step with
    | stop r =>
      cases done
      exact ⟨List.prefix_rfl, rfl⟩
    | entry name d sz t next =>
      dsimp only at done
      obtain ⟨safe, -, done⟩ := bind_ok.mp done
      have more : p.handed <+: p.handed ++ [⟨pos, d, sz⟩] := List.prefix_append ..
      split at done
      · cases done
        exact ⟨more, rfl⟩
      · obtain ⟨n, -, done⟩ := bind_ok.mp done
        obtain ⟨r, entry, done⟩ := bind_ok.mp done
        cases r with
        | error code =>
          cases done
          exact ⟨more, rfl⟩
        | ok p₁ =>
          obtain ⟨handed, tar⟩ := handed_parseEntry entry
          obtain ⟨rest, tar'⟩ := ih done
          rw [handed] at rest
          exact ⟨more.trans rest, tar'.trans tar⟩

theorem align512_eq {size : Nat} (below : size + 511 < 2 ^ 32) :
    align512 size = (size + 511) / tarBlock * tarBlock := by
  rw [align512, u32_of_lt (by unfold tarBlock; omega)]
  rfl

/-- What the scan does with the outcome of an entry. -/
def goOn (p : Parse) (fuel next : Nat) (r : Except Int Parse) : Access (Int × Parse) :=
  match r with
  | .error code => .ok (code, p)
  | .ok p' => parseLoop fuel next p'

/-- **One header** that fits: the scan ends here, or goes on behind the entry. -/
theorem parseLoop_cases (small : tar.length < 2 ^ 31) (scan : Scan tar pos seen p)
    (fits : HeaderFits tar pos) :
    (∃ code p', (∀ fuel, parseLoop (fuel + 1) pos p = .ok (code, p')) ∧
      (∃ next seen', Scan tar next seen' p') ∧ ∀ q, ¬EntryStep tar (pos, seen) q) ∨
    ∃ q p', EntryStep tar (pos, seen) q ∧ (∀ q', EntryStep tar (pos, seen) q' → q' = q) ∧
      (∀ fuel, parseLoop (fuel + 1) pos p = parseLoop fuel q.1 p') ∧ Scan tar q.1 q.2 p' := by
  by_cases header : IsHeader tar pos
  · obtain ⟨below, ends⟩ := fits header
    have step := tarNext_header small header
    rw [u32_of_lt below] at step
    by_cases long : tar.length < pos + tarBlock + sizeField tar pos
    · rw [if_pos long] at step
      refine .inl ⟨-3, p, fun fuel => ?_, ⟨pos, seen, scan⟩, fun q step' => ?_⟩
      · rw [parseLoop, scan.archive, ok_bind step]
        rfl
      · have within : pos + tarBlock + sizeField tar pos ≤ tar.length := step'.2.1
        omega
    · rw [if_neg long] at step
      obtain ⟨safe, named⟩ := tarSafeName_ok.mpr (ends (by omega))
      have block : tarBlock = 512 := rfl
      have next : align512 (sizeField tar pos) = _ := align512_eq (by omega)
      have round := Nat.div_mul_le_self (sizeField tar pos + 511) tarBlock
      rw [next, u32_of_lt (by omega)] at step
      have e : Scan tar (pos + 1) seen
          { p with handed := p.handed ++ [⟨pos, pos + tarBlock, sizeField tar pos⟩] } := by
        refine ⟨scan.archive, by omega, scan.control, scan.manifest, scan.text, ?_, ?_, ?_⟩
        · intro e mem
          rcases List.mem_append.mp mem with mem | mem
          · exact scan.inside e mem
          · obtain rfl := List.mem_singleton.mp mem
            simp only
            omega
        · intro e mem
          rcases List.mem_append.mp mem with mem | mem
          · exact (scan.behind e mem).trans (Nat.lt_succ_self _)
          · obtain rfl := List.mem_singleton.mp mem
            exact Nat.lt_succ_self _
        · refine List.pairwise_append.mpr ⟨scan.order, List.pairwise_singleton _ _, ?_⟩
          intro a mem b memB
          obtain rfl := List.mem_singleton.mp memB
          exact scan.behind a mem
      cases safe with
      | false =>
        refine .inl ⟨-4, _, fun fuel => ?_, ⟨_, _, e⟩, fun q step' => ?_⟩
        rotate_left
        · have := step'.2.2.1
          rw [named] at this
          cases this
        · rw [parseLoop, scan.archive, ok_bind step]
          dsimp only
          rw [scan.archive, ok_bind named]
          rfl
      | true =>
        obtain ⟨n, text⟩ := cstr_ok (mem_of_tarSafeName named)
        have unfolded : ∀ fuel, parseLoop (fuel + 1) pos p =
            (parseEntry { p with handed := p.handed ++ [⟨pos, pos + tarBlock, sizeField tar pos⟩] }
              n (pos + tarBlock) (sizeField tar pos) (tar.getD (pos + 156) 0) >>= fun r =>
              goOn { p with handed := p.handed ++ [⟨pos, pos + tarBlock, sizeField tar pos⟩] } fuel
                (pos + tarBlock + (sizeField tar pos + 511) / tarBlock * tarBlock) r) := by
          intro fuel
          rw [parseLoop, scan.archive, ok_bind step]
          dsimp only
          rw [scan.archive, ok_bind named]
          rw [if_neg (by decide), ok_bind text]
          rfl
        rcases parseEntry_cases (tar.getD (pos + 156) 0) n e
            (show pos + tarBlock + sizeField tar pos ≤ tar.length by omega)
            (show pos + tarBlock + (sizeField tar pos + 511) / tarBlock * tarBlock ≤ _ by omega)
            (by omega) with ⟨code, -, again, done⟩ | ⟨p', new, done, scan'⟩
        · refine .inl ⟨code, _, fun fuel => ?_, ⟨_, _, e⟩, ?_⟩
          · rw [unfolded, ok_bind done, goOn]
          · rintro q ⟨-, -, -, n', text', new, -⟩
            cases text.symm.trans text'
            exact new again
        · refine .inr ⟨_, p', ⟨header, not_lt.mp long, named, n, text, new, rfl⟩, ?_, fun fuel => ?_,
            scan'⟩
          · rintro q' ⟨-, -, -, n', text', -, rfl⟩
            cases text.symm.trans text'
            rfl
          · rw [unfolded, ok_bind done, goOn]
  · obtain ⟨r, step⟩ := tarNext_stop small scan.near header
    refine .inl ⟨if r < 0 then -3 else 0, p, fun fuel => ?_, ⟨pos, seen, scan⟩,
      fun q step' => header step'.1⟩
    rw [parseLoop, scan.archive, ok_bind step]
    rfl

theorem octalDigits_lt {n v w : Nat} (below : v < 2 ^ 32) (done : octalDigits n v s = .ok w) :
    w < 2 ^ 32 := by
  induction n generalizing s v with
  | zero =>
    cases done
    exact below
  | succ n ih =>
    cases s with
    | nil => cases done
    | cons b rest =>
      rw [octalDigits] at done
      split at done
      · cases done
        exact below
      · split at done
        · cases done
          exact below
        · exact ih (Nat.mod_lt _ (by decide)) done

theorem sizeField_lt (tar : Bytes) (pos : Nat) : sizeField tar pos < 2 ^ 32 := by
  unfold sizeField
  cases octal : tarOctal tar (pos + 124) 12 with
  | ok v => exact octalDigits_lt (by decide) octal
  | error e => exact Nat.two_pow_pos 32

/-- A header that is read without a fault fits, if the entries handed out are in order. -/
theorem headerFits_of_ok (small : tar.length < 2 ^ 31) (scan : Scan tar pos seen p)
    (done : parseLoop fuel pos p = .ok (code, p')) (order : InOrder tar p'.handed) :
    HeaderFits tar pos := by
  intro header
  cases fuel with
  | zero => cases done
  | succ fuel =>
    have field := sizeField_lt tar pos
    have first := header.1
    rw [parseLoop, scan.archive, ok_bind (tarNext_header small header)] at done
    by_cases long : u32 (pos + tarBlock + sizeField tar pos) > tar.length
    · unfold u32 at long
      refine ⟨by omega, fun within => ?_⟩
      omega
    · rw [if_neg long] at done
      dsimp only at done
      obtain ⟨safe, named, done⟩ := bind_ok.mp done
      rw [scan.archive] at named
      refine ⟨?_, fun _ => tarSafeName_ok.mp ⟨safe, named⟩⟩
      have out : (⟨pos, pos + tarBlock, sizeField tar pos⟩ : Handed) ∈ p'.handed := by
        have mem : (⟨pos, pos + tarBlock, sizeField tar pos⟩ : Handed) ∈
            p.handed ++ [⟨pos, pos + tarBlock, sizeField tar pos⟩] := by simp
        split at done
        · cases done
          exact mem
        · obtain ⟨n, -, done⟩ := bind_ok.mp done
          obtain ⟨r, entry, done⟩ := bind_ok.mp done
          cases r with
          | error code =>
            cases done
            exact mem
          | ok p₁ =>
            have kept := (handed_parseLoop done).1
            rw [(handed_parseEntry entry).1] at kept
            exact kept.subset mem
      have := order.1 _ out
      simp only at this
      omega

/-- All headers behind one that has been read without a fault fit. -/
theorem headersFit_of_ok (small : tar.length < 2 ^ 31) (scan : Scan tar pos seen p)
    (done : parseLoop fuel pos p = .ok (code, p')) (order : InOrder tar p'.handed)
    {q : Nat × List Bytes} (way : ReflTransGen (EntryStep tar) (pos, seen) q) :
    HeaderFits tar q.1 := by
  have reached : ∃ fuel p, Scan tar q.1 q.2 p ∧ parseLoop fuel q.1 p = .ok (code, p') := by
    induction way with
    | refl => exact ⟨fuel, p, scan, done⟩
    | @tail q q' _ step ih =>
      obtain ⟨fuel, p, scan, done⟩ := ih
      have fits := headerFits_of_ok small scan done order
      cases fuel with
      | zero => cases done
      | succ fuel =>
        rcases parseLoop_cases small scan fits with ⟨_, _, -, -, none_⟩ | ⟨r, p₁, -, only, next, scan'⟩
        · exact absurd step (none_ q')
        · cases only q' step
          exact ⟨fuel, p₁, scan', (next fuel).symm.trans done⟩
  obtain ⟨fuel, p, scan, done⟩ := reached
  exact headerFits_of_ok small scan done order

/-- **An archive whose headers fit** is scanned to an end, with enough fuel. -/
theorem parseLoop_total (small : tar.length < 2 ^ 31) (scan : Scan tar pos seen p)
    (fits : ∀ q, ReflTransGen (EntryStep tar) (pos, seen) q → HeaderFits tar q.1) :
    ∃ m code p', (∃ next seen', Scan tar next seen' p') ∧
      ∀ k, parseLoop (m + k) pos p = .ok (code, p') := by
  induction measure : tar.length + 512 - pos using Nat.strongRecOn generalizing pos seen p with
  | ind n ih =>
    rcases parseLoop_cases small scan (fits _ .refl) with
      ⟨code, p', done, scan', -⟩ | ⟨q, p', step, -, next, scan'⟩
    · exact ⟨1, code, p', scan', fun k => by rw [Nat.add_comm, done]⟩
    · have ahead : tar.length + 512 - q.1 < n := by
        obtain ⟨header, -, -, n', -, -, same⟩ := step
        have inside : pos + tarBlock ≤ tar.length := header.1
        have block : tarBlock = 512 := rfl
        rw [same]
        simp only
        omega
      obtain ⟨m, code, p'', scan'', done⟩ :=
        ih _ ahead scan' (fun r way => fits r (.head step way)) rfl
      exact ⟨m + 1, code, p'', scan'', fun k => by rw [Nat.add_right_comm, next, done]⟩

/-! ### The texts of an archive -/

/-- A line in the first `m` bytes, and what is left of them. -/
theorem takeLine_ok {m : Nat} (long : m ≤ s.length) : ∃ line left rest,
    takeLine m s = .ok (line, left, rest) ∧ s = line ++ rest ∧ line.length + left = m := by
  induction m generalizing s with
  | zero => exact ⟨[], 0, s, rfl, rfl, rfl⟩
  | succ m ih =>
    cases s with
    | nil => cases long
    | cons b rest =>
      rw [takeLine]
      split
      · exact ⟨[], m + 1, b :: rest, rfl, rfl, Nat.zero_add _⟩
      · obtain ⟨line, left, rest', done, same, count⟩ := ih (Nat.le_of_succ_le_succ long)
        refine ⟨b :: line, left, rest', by rw [done]; rfl, by rw [same]; rfl, ?_⟩
        rw [List.length_cons]
        omega

theorem skipBreaks_ok {m : Nat} (long : m ≤ s.length) : ∃ left rest,
    skipBreaks m s = .ok (left, rest) ∧ left ≤ rest.length := by
  induction m generalizing s with
  | zero => exact ⟨0, s, rfl, Nat.zero_le _⟩
  | succ m ih =>
    cases s with
    | nil => cases long
    | cons b rest =>
      rw [skipBreaks]
      split
      · exact ih (Nat.le_of_succ_le_succ long)
      · exact ⟨m + 1, b :: rest, rfl, long⟩

theorem copyLines_ok {key : Bytes} {cap m : Nat} (long : m ≤ s.length) :
    ∃ v, copyLines key cap fuel m s = .ok v := by
  induction fuel generalizing m s with
  | zero => exact ⟨[], rfl⟩
  | succ fuel ih =>
    rw [copyLines]
    split
    · exact ⟨[], rfl⟩
    · obtain ⟨line, left, rest, taken, rfl, count⟩ := takeLine_ok long
      rw [List.length_append] at long
      obtain ⟨left', rest', skipped, within⟩ := skipBreaks_ok (s := rest) (m := left) (by omega)
      rw [ok_bind taken]
      dsimp only
      rw [ok_bind skipped]
      dsimp only
      split
      · exact ⟨_, rfl⟩
      · exact ih within

/-- The end of the parser reads inside the control text. -/
theorem parseControl_ok (scan : Scan tar pos seen p) :
    ∃ code p', parseControl p = .ok (code, p') ∧ p'.pkg.tar = tar ∧ p'.handed = p.handed := by
  unfold parseControl
  split
  · split
    · rename_i control size _ at_ _
      have inside := scan.text at_
      have value : ∀ (key : String) (cap : Nat),
          ∃ v, copyLineValue p.pkg.tar control size key cap = .ok v := by
        intro key cap
        refine copyLines_ok ?_
        rw [scan.archive, List.length_drop]
        omega
      split
      · exact ⟨_, _, rfl, scan.archive, rfl⟩
      · obtain ⟨name, done₁⟩ := value "Package" tzstNameMax
        obtain ⟨version, done₂⟩ := value "Version" 32
        obtain ⟨arch, done₃⟩ := value "Architecture" 24
        obtain ⟨description, done₄⟩ := value "Description" 96
        rw [ok_bind done₁, ok_bind done₂, ok_bind done₃, ok_bind done₄]
        dsimp only
        split
        · exact ⟨_, _, rfl, scan.archive, rfl⟩
        · exact ⟨_, _, rfl, scan.archive, rfl⟩
    · exact ⟨_, _, rfl, scan.archive, rfl⟩
  · exact ⟨_, _, rfl, scan.archive, rfl⟩

theorem handed_parseControl (done : parseControl p = .ok (code, p')) :
    p'.handed = p.handed ∧ p'.pkg.tar = p.pkg.tar := by
  unfold parseControl at done
  split at done
  · split at done
    · split at done
      · cases done
        exact ⟨rfl, rfl⟩
      · obtain ⟨name, -, done⟩ := bind_ok.mp done
        obtain ⟨version, -, done⟩ := bind_ok.mp done
        obtain ⟨arch, -, done⟩ := bind_ok.mp done
        obtain ⟨description, -, done⟩ := bind_ok.mp done
        dsimp only at done
        split at done
        · cases done
          exact ⟨rfl, rfl⟩
        · cases done
          exact ⟨rfl, rfl⟩
    · cases done
      exact ⟨rfl, rfl⟩
  · cases done
    exact ⟨rfl, rfl⟩

theorem negative_of_takeMeta (done : takeMeta p n d sz = .ok (.error code)) : code < 0 := by
  unfold takeMeta at done
  split at done
  · split at done
    · cases done
      decide
    · cases done
  · split at done
    · split at done
      · cases done
        decide
      · cases done
    · split at done
      · generalize bytesAt p.pkg.tar d _ = name at done
        cases name <;> cases done
      · cases done

/-- An archive that the parser has come to the end of is read again in the same way. -/
theorem nameCountLoop_ok (wanted : Bytes) (count : Nat)
    (done : parseLoop fuel pos p = .ok (code, p')) (accepted : ¬code < 0) :
    ∃ k, nameCountLoop p.pkg.tar wanted fuel pos count p.handed = .ok (k, p'.handed) := by
  induction fuel generalizing pos p count with
  | zero => cases done
  | succ fuel ih =>
    rw [parseLoop] at done
    obtain ⟨step, stepped, done⟩ := bind_ok.mp done
    rw [nameCountLoop, ok_bind stepped]
    cases step with
    | stop r =>
      cases done
      exact ⟨count, rfl⟩
    | entry name d sz t next =>
      dsimp only at done
      obtain ⟨safe, -, done⟩ := bind_ok.mp done
      split at done
      · cases done
        exact absurd (by decide) accepted
      · obtain ⟨n, text, done⟩ := bind_ok.mp done
        obtain ⟨r, entry, done⟩ := bind_ok.mp done
        dsimp only
        rw [ok_bind text]
        cases r with
        | error code' =>
          cases done
          refine absurd ?_ accepted
          unfold parseEntry at entry
          cases mid : takeMeta (countFile _ t) n d sz with
          | error e =>
            rw [mid] at entry
            cases entry
          | ok r =>
            rw [mid] at entry
            cases r with
            | error c =>
              cases entry
              exact negative_of_takeMeta mid
            | ok p₁ => cases entry
        | ok p₁ =>
          obtain ⟨handed, same⟩ := handed_parseEntry entry
          have rest := ih (if n = wanted then u32 (count + 1) else count) done
          rw [handed, same] at rest
          exact rest

/-! ### The parser -/

/-- **The parser** ends, stays inside its buffers, and hands out entries in order; so does the
search through an archive that it has accepted. -/
def Parses (buf : Bytes) : Prop :=
  ∃ fuel code p, tzstParse fuel buf = .ok (code, p) ∧ p.pkg.tar.length ≤ tzstMaxUnpacked ∧
    InOrder p.pkg.tar p.handed ∧
    (code = 0 → ∀ wanted, ∃ fuel k handed,
      archiveNameCount fuel p.pkg.tar wanted = .ok (k, handed) ∧ InOrder p.pkg.tar handed)

/-- The archive in a frame, if there is one, has headers that fit. -/
def ArchivesFit (buf : Bytes) : Prop :=
  ∀ fuel code tar, zstdUnpackRaw fuel buf tzstMaxUnpacked = .ok (code, tar) → ¬code < 0 →
    tarBlock ≤ tar.length → ArchiveFits tar

theorem scan_start (tar : Bytes) : Scan tar 0 [] (parseStart tar) :=
  ⟨rfl, Nat.zero_le _, ⟨nofun, nofun⟩, ⟨nofun, nofun⟩, nofun, nofun, nofun, .nil⟩

theorem fits_of_parses {buf : Bytes} (small : buf.length < 2 ^ 32) (parses : Parses buf) :
    FrameFits buf ∧ ArchivesFit buf := by
  obtain ⟨fuel, code, p, done, -, order, -⟩ := parses
  unfold tzstParse at done
  obtain ⟨⟨r, tar⟩, unpacked, done⟩ := bind_ok.mp done
  refine ⟨unpack_iff small |>.mp ⟨fuel, _, unpacked⟩, ?_⟩
  intro fuel' code' tar' unpacked' positive long
  cases unpack_det small unpacked unpacked'
  have length := length_unpack small unpacked
  dsimp only at done length
  rw [if_neg (by omega)] at done
  obtain ⟨⟨code₁, p₁⟩, looped, done⟩ := bind_ok.mp done
  dsimp only at done
  have max : tzstMaxUnpacked < 2 ^ 31 := by decide
  have order₁ : InOrder tar p₁.handed := by
    have archive : p₁.pkg.tar = tar := (handed_parseLoop looped).2
    split at done
    · cases done
      exact archive ▸ order
    · obtain ⟨handed, same⟩ := handed_parseControl done
      rw [handed, same, archive] at order
      exact order
  exact fun q way => headersFit_of_ok (length.trans_lt max) (scan_start tar) looped order₁ way

/-- **The inputs that are parsed** as they should be. -/
theorem parses_iff (buf : Bytes) (small : buf.length < 2 ^ 32) :
    Parses buf ↔ FrameFits buf ∧ ArchivesFit buf := by
  refine ⟨fits_of_parses small, fun ⟨frame, archives⟩ => ?_⟩
  obtain ⟨m, ⟨r, tar⟩, length, unpacked⟩ := unpack_total small frame
  simp only at length
  have max : tzstMaxUnpacked < 2 ^ 31 := by decide
  by_cases empty : r < 0 ∨ tar.length < tarBlock
  · refine ⟨m, -2, parseStart [], ?_, Nat.zero_le _, ⟨nofun, .nil⟩, nofun⟩
    rw [tzstParse, ok_bind (show zstdUnpackRaw m buf _ = _ from unpacked 0)]
    exact if_pos empty
  · obtain ⟨m', code, p, ⟨next, seen, scan⟩, looped⟩ :=
      parseLoop_total (length.trans_lt max) (scan_start tar)
        (archives m r tar (unpacked 0) (fun negative => empty (.inl negative))
          (not_lt.mp fun short => empty (.inr short)))
    have order : InOrder tar p.handed := ⟨scan.inside, scan.order⟩
    have unfolded : tzstParse (m + m') buf =
        if code < 0 then .ok (code, p) else parseControl p := by
      rw [tzstParse, ok_bind (unpacked m')]
      dsimp only
      rw [if_neg empty, Nat.add_comm, ok_bind (looped m)]
      rfl
    by_cases refused : code < 0
    · refine ⟨m + m', code, p, unfolded.trans (if_pos refused), scan.archive ▸ length,
        scan.archive ▸ order, fun accepted => absurd refused ?_⟩
      rw [accepted]
      decide
    · obtain ⟨code', p', done, archive, handed⟩ := parseControl_ok scan
      refine ⟨m + m', code', p', (unfolded.trans (if_neg refused)).trans done, archive ▸ length,
        ?_, fun _ wanted => ?_⟩
      · rw [archive, handed]
        exact order
      · obtain ⟨k, counted⟩ := nameCountLoop_ok wanted 0 (looped 0) refused
        rw [archive]
        exact ⟨m' + 0, k, p.handed, counted, order⟩

/-! ### Inputs -/

/-- A frame of one block, a run of zero bytes. -/
def emptyFrame : Bytes := zstdMagic ++ [0, 3, 16, 0, 0]

theorem parses_empty : Parses emptyFrame ↔ FrameFits emptyFrame ∧ ArchivesFit emptyFrame :=
  parses_iff emptyFrame (by decide)

/-- An archive of one header, with the size `2 ^ 32 - 512`. -/
def loopTar : Bytes := tarHeader [97] (2 ^ 32 - 512)

/-- The frame of that archive: one raw block. -/
def loopFrame : Bytes := zstdMagic ++ [0, 1, 16, 0] ++ loopTar

/-- The scan comes back to the header. -/
theorem parseLoop_loops (archive : p.pkg.tar = loopTar) (r : Int × Parse) :
    parseLoop fuel 0 p ≠ .ok r := by
  induction fuel generalizing p with
  | zero => exact nofun
  | succ fuel ih =>
    intro done
    have next : tarNext loopTar 0 = .ok (.entry 0 512 (2 ^ 32 - 512) 48 0) := by decide +kernel
    have safe : tarSafeName (loopTar.drop 0) = .ok true := by decide
    have name : cstr (loopTar.drop 0) = .ok [97] := by decide
    rw [parseLoop, archive, ok_bind next] at done
    dsimp only at done
    rw [archive, ok_bind safe] at done
    rw [if_neg (by decide), ok_bind name] at done
    obtain ⟨r', entry, done⟩ := bind_ok.mp done
    cases r' with
    | error code =>
      have kept : ∀ q, takeMeta q [97] 512 (2 ^ 32 - 512) = .ok (.ok q) := by
        intro q
        rw [takeMeta, if_neg (by decide), if_neg (by decide), if_neg (by decide)]
      rw [parseEntry, kept] at entry
      cases entry
    | ok p' => exact ih ((handed_parseEntry entry).2.trans archive) done

/-- **An entry that is followed by itself**: the parser does not end. -/
theorem octal_loops : (∀ fuel r, tzstParse fuel loopFrame ≠ .ok r) ∧ ¬Parses loopFrame := by
  have never : ∀ fuel r, tzstParse fuel loopFrame ≠ .ok r := by
    intro fuel r done
    unfold tzstParse at done
    obtain ⟨unpacked, frame, done⟩ := bind_ok.mp done
    have frame' : zstdUnpackRaw 1 loopFrame tzstMaxUnpacked = .ok (0, loopTar) := by decide +kernel
    cases unpack_det (by decide +kernel) frame frame'
    dsimp only at done
    rw [if_neg (by decide +kernel)] at done
    obtain ⟨looped, ran, -⟩ := bind_ok.mp done
    exact parseLoop_loops rfl looped ran
  exact ⟨never, fun ⟨fuel, code, p, done, _⟩ => never fuel (code, p) done⟩

end AtmKoala.Package
