import AtmKoala.Config.Set
import AtmKoala.Config.Text

/-!
Configuration files written and read again.

* `Legible`: what every section has that was read from a text or set by `cfg_set`
  (`Made.legible`).
* `parse_serialize`: a file that is written and read again has the sections it had, but the
  pairs of a `global` section end up in the section in front of it.
* `roundTrips_iff`: which files answer every `cfg_get` as before.
-/

namespace AtmKoala.Config

open Lib Package

variable {key val name p : Bytes} {cfg acc : CfgFile} {sec : Section} {n k : Bytes} {kvs : List Pair}

/-! ### What is made -/

/-- A name of a section or a key that `cfg_set` is given. -/
structure PlainWord (word : Bytes) : Prop where
  short : word.length < cfgKeyLen
  plain : ∀ b ∈ word, b ≠ 0 ∧ b ≠ 91 ∧ b ≠ 93 ∧ b ≠ equalsByte ∧ b ≠ 35 ∧ b ≠ 59 ∧
    isBlank b = false ∧ isBreak b = false

/-- A value that `cfg_set` is given. -/
structure PlainLine (val : Bytes) : Prop where
  value : PlainValue val
  back : ∀ b ∈ val.getLast?, isBlank b = false

/-- The files that come from a text, and from those by `cfg_set`. -/
inductive Made : CfgFile → Prop where
  | parse (text : Bytes) : Made (cfgParse text)
  | set {cfg : CfgFile} {name key val : Bytes} (made : Made cfg) (nameWord : PlainWord name)
      (keyWord : PlainWord key) (line : PlainLine val) : Made (cfgSet cfg name key val).2

/-- What is written of a pair is read back, unless the key is empty. -/
structure LegiblePair (kv : Pair) : Prop where
  key : kv.key ≠ [] → ReadableKey kv.key
  val : PlainValue kv.val
  back : trimmed kv.val = kv.val

structure Legible (sec : Section) : Prop where
  name : PlainName sec.name
  few : sec.entries.length ≤ cfgMaxKeys
  pairs : ∀ kv ∈ sec.entries, LegiblePair kv

theorem legible_nil (plain : PlainName name) : Legible ⟨name, []⟩ :=
  ⟨plain, Nat.zero_le _, fun _ none_ => nomatch none_⟩

/-- A key is cut at what ends it. -/
theorem scanKey_short (key p : Bytes) (short : key.length < cfgKeyLen) :
    (scanKey key p).1.length < cfgKeyLen := by
  induction p generalizing key with
  | nil => exact short
  | cons c p ih =>
    rw [scanKey]
    split
    · exact short
    · rename_i goes
      split
      · refine ih _ ?_
        rw [List.length_append, List.length_singleton]
        unfold cfgKeyLen at short goes ⊢
        omega
      · split
        · exact short
        · exact ih _ short

theorem scanKey_plain (key p : Bytes) (live : ∀ b ∈ p, b ≠ 0)
    (plain : ∀ b ∈ key, b ≠ 0 ∧ isBlank b = false ∧ b ≠ newline ∧ b ≠ equalsByte) :
    ∀ b ∈ (scanKey key p).1, b ≠ 0 ∧ isBlank b = false ∧ b ≠ newline ∧ b ≠ equalsByte := by
  induction p generalizing key with
  | nil => exact plain
  | cons c p ih =>
    have tail := fun b mem => live b (List.mem_cons_of_mem c mem)
    rw [scanKey]
    split
    · exact plain
    · rename_i goes
      split
      · rename_i notBlank
        refine ih _ tail fun b mem => ?_
        rcases List.mem_append.mp mem with old | new
        · exact plain b old
        · cases List.mem_singleton.mp new
          refine ⟨live c List.mem_cons_self, by simpa using notBlank, fun same => goes (.inr (.inl same)),
            fun same => goes (.inl same)⟩
      · split
        · exact plain
        · exact ih _ tail plain

theorem scanKey_prefix (key p : Bytes) : key <+: (scanKey key p).1 := by
  induction p generalizing key with
  | nil => exact List.prefix_refl _
  | cons c p ih =>
    rw [scanKey]
    split
    · exact List.prefix_refl _
    · split
      · exact (List.prefix_append key [c]).trans (ih _)
      · split
        · exact List.prefix_refl _
        · exact ih _

/-- A key that is read is read again. -/
theorem scanKey_readable (live : ∀ b ∈ p, b ≠ 0) (begins : Begins p) (some_ : (scanKey [] p).1 ≠ []) :
    ReadableKey (scanKey [] p).1 := by
  refine ⟨scanKey_short [] p (by decide), ?_, scanKey_plain [] p live fun _ none_ => nomatch none_⟩
  cases p with
  | nil => exact absurd rfl some_
  | cons c p =>
    obtain ⟨blank, noBreak, hash, semicolon, bracket⟩ := begins c rfl
    rw [scanKey] at some_ ⊢
    split at some_
    · exact absurd rfl some_
    · rename_i goes
      rw [if_neg goes, if_pos (by rw [blank]; rfl), List.nil_append]
      obtain ⟨rest, same⟩ := scanKey_prefix [c] p
      exact ⟨c, rest, same.symm, hash, semicolon, bracket, noBreak⟩

theorem trimmed_scanValue (p : Bytes) : trimmed (scanValue p) = scanValue p :=
  List.rdropWhile_idempotent _ _

theorem legible_addPair (live : ∀ b ∈ p, b ≠ 0) (begins : Begins p) (legible : Legible sec) :
    Legible (addPair p sec) := by
  have left := scanKey_rest [] p
  have readable := scanKey_readable live begins
  unfold addPair
  split
  · rename_i room
    split
    · rename_i key c rest scan
      rw [scan] at left readable
      split
      · rename_i taken
        refine ⟨legible.name, ?_, fun kv mem => ?_⟩
        · dsimp only
          rw [List.length_append, List.length_singleton]
          omega
        · rcases List.mem_append.mp mem with old | new
          · exact legible.pairs kv old
          · cases List.mem_singleton.mp new
            have after : ∀ b ∈ rest, b ≠ 0 := fun b inside => live b (left b (List.mem_cons_of_mem _ inside))
            exact ⟨fun _ => readable taken.2, plainValue_scanValue after, trimmed_scanValue rest⟩
      · exact legible
    · exact legible
  · exact legible

theorem plainName_header (live : ∀ b ∈ p, b ≠ 0) : PlainName (headerName p) := by
  refine ⟨?_, fun b mem => ?_⟩
  · have := List.length_take_le (cfgKeyLen - 1) (p.takeWhile fun c => c ≠ 93 && c ≠ newline)
    unfold headerName
    unfold cfgKeyLen at *
    omega
  · have inside := List.mem_of_mem_take mem
    have kept := List.mem_takeWhile_imp inside
    simp only [ne_eq, decide_not, Bool.and_eq_true, Bool.not_eq_eq_eq_not, Bool.not_true,
      decide_eq_false_iff_not] at kept
    exact ⟨live b ((List.takeWhile_sublist _).mem inside), kept.1, kept.2⟩

theorem PlainWord.sectionName (word : PlainWord name) : PlainName name := by
  refine ⟨word.short, fun b mem => ?_⟩
  obtain ⟨live, -, close, -, -, -, -, noBreak⟩ := word.plain b mem
  exact ⟨live, close, ne_newline noBreak⟩

theorem PlainWord.readable (word : PlainWord key) (some_ : key ≠ []) : ReadableKey key := by
  refine ⟨word.short, ?_, fun b mem => ?_⟩
  · cases key with
    | nil => exact absurd rfl some_
    | cons c k =>
      obtain ⟨-, bracket, -, -, hash, semicolon, -, noBreak⟩ := word.plain c List.mem_cons_self
      exact ⟨c, k, rfl, hash, semicolon, bracket, noBreak⟩
  · obtain ⟨live, -, -, equals_, -, -, blank, noBreak⟩ := word.plain b mem
    exact ⟨live, blank, ne_newline noBreak, equals_⟩

theorem PlainLine.trimmed_eq (line : PlainLine val) : trimmed val = val := by
  refine List.rdropWhile_eq_self_iff.mpr fun some_ => ?_
  have last := line.back _ (List.getLast?_eq_getLast_of_ne_nil some_)
  rw [last]
  decide

/-- **Every file that is made** is legible. -/
theorem Made.legible (made : Made cfg) : (∀ sec ∈ cfg, Legible sec) ∧ cfg.length ≤ cfgMaxSections := by
  induction made with
  | parse text =>
    exact cfgParse_sections (legible_nil ⟨by decide, by decide⟩)
      (fun q live => legible_nil (plainName_header live)) (fun q sec live begins => legible_addPair live begins)
      text
  | @set cfg name key val _ nameWord keyWord line ih =>
    have pair : LegiblePair ⟨key, val⟩ := ⟨keyWord.readable, line.value, line.trimmed_eq⟩
    refine ⟨cfgSet_sections ih.1 (legible_nil nameWord.sectionName) fun sec legible => ?_, length_cfgSet ih.2⟩
    exact ⟨(setKey_name key val sec) ▸ legible.name, setKey_few legible.few, setKey_pairs legible.pairs pair⟩

/-! ### Written and read -/

/-- The pairs of the `global` sections at the front. -/
def frontPairs (cfg : CfgFile) : List Pair :=
  (cfg.takeWhile (·.name = globalName)).flatMap (·.entries)

/-- The other sections, each with the pairs of the `global` ones right behind it. -/
def tails : CfgFile → List (Section × List Pair)
  | [] => []
  | sec :: rest => if sec.name = globalName then tails rest else (sec, frontPairs rest) :: tails rest

/-- The pairs that there is room for behind those of the section itself. -/
def spill (s : Section × List Pair) : List Pair := s.2.take (cfgMaxKeys - s.1.entries.length)

/-- **What a file becomes.** -/
def regrouped (cfg : CfgFile) : CfgFile :=
  (if frontPairs cfg = [] then [] else [⟨globalName, (frontPairs cfg).take cfgMaxKeys⟩]) ++
    (tails cfg).map fun s => ⟨s.1.name, s.1.entries ++ spill s⟩

/-- Lines are read into the last section, or into one called `global`. -/
def pour (acc : CfgFile) (kvs : List Pair) : CfgFile :=
  if acc = [] then (if kvs = [] then [] else [addPairs kvs ⟨globalName, []⟩])
  else acc.modifyLast (addPairs kvs)

theorem pour_last (acc : CfgFile) (sec : Section) (kvs : List Pair) :
    pour (acc ++ [sec]) kvs = acc ++ [addPairs kvs sec] := by
  have some_ : acc ++ [sec] ≠ [] := List.append_ne_nil_of_right_ne_nil _ (List.cons_ne_nil _ _)
  rw [pour, if_neg some_, List.modifyLast_concat]

theorem pour_nil (few : ∀ s ∈ acc, s.entries.length ≤ cfgMaxKeys) : pour acc [] = acc := by
  rcases List.eq_nil_or_concat' acc with rfl | ⟨front, last, rfl⟩
  · rfl
  · rw [pour_last, addPairs_nil (few last (by simp))]

theorem pour_append (kvs' : List Pair) : pour acc (kvs ++ kvs') = pour (pour acc kvs) kvs' := by
  rcases List.eq_nil_or_concat' acc with rfl | ⟨front, last, rfl⟩
  · cases kvs with
    | nil => rfl
    | cons kv kvs =>
      have first : pour [] (kv :: kvs) = [] ++ [addPairs (kv :: kvs) ⟨globalName, []⟩] := rfl
      rw [first, pour_last, ← addPairs_append]
      rfl
  · rw [pour_last, pour_last, pour_last, addPairs_append]

theorem pour_few (few : ∀ s ∈ acc, s.entries.length ≤ cfgMaxKeys) :
    ∀ s ∈ pour acc kvs, s.entries.length ≤ cfgMaxKeys := by
  rcases List.eq_nil_or_concat' acc with rfl | ⟨front, last, rfl⟩
  · cases kvs with
    | nil => exact few
    | cons kv kvs =>
      intro s mem
      cases List.mem_singleton.mp mem
      exact length_addPairs _ _
  · rw [pour_last]
    intro s mem
    rcases List.mem_append.mp mem with old | new
    · exact few s (List.mem_append_left _ old)
    · cases List.mem_singleton.mp new
      exact length_addPairs _ _

theorem length_pour (acc : CfgFile) (kvs : List Pair) : (pour acc kvs).length ≤ acc.length + 1 := by
  rcases List.eq_nil_or_concat' acc with rfl | ⟨front, last, rfl⟩
  · cases kvs with
    | nil => exact Nat.zero_le _
    | cons kv kvs => exact Nat.le_refl 1
  · rw [pour_last, List.length_append, List.length_append]
    exact Nat.le_succ _

theorem reads_poured (readable : ∀ kv ∈ kvs, ReadablePair kv)
    (few : ∀ s ∈ acc, s.entries.length ≤ cfgMaxKeys) (rest : Bytes) :
    Reads (pairsText kvs ++ rest) acc rest (pour acc kvs) := by
  rcases List.eq_nil_or_concat' acc with rfl | ⟨front, last, rfl⟩
  · cases kvs with
    | nil => exact .refl _ _
    | cons kv kvs =>
      have split : pairsText (kv :: kvs) ++ rest = pairText kv ++ (pairsText kvs ++ rest) :=
        List.append_assoc ..
      have whole : pour [] (kv :: kvs) = [] ++ [addPairs kvs (addPairs [kv] ⟨globalName, []⟩)] := by
        rw [← addPairs_cons]
        rfl
      rw [split, whole]
      exact (reads_first (readable kv List.mem_cons_self) _).trans
        (reads_pairs (fun kv mem => readable kv (List.mem_cons_of_mem _ mem)) (length_addPairs _ _) [] rest)
  · rw [pour_last]
    exact reads_pairs readable (few last (by simp)) front rest

theorem frontPairs_cons_global (same : sec.name = globalName) (cfg : CfgFile) :
    frontPairs (sec :: cfg) = sec.entries ++ frontPairs cfg := by
  rw [frontPairs, List.takeWhile_cons, if_pos (by simpa using same), List.flatMap_cons]
  rfl

theorem frontPairs_cons_named (named : sec.name ≠ globalName) (cfg : CfgFile) :
    frontPairs (sec :: cfg) = [] := by
  rw [frontPairs, List.takeWhile_cons_of_neg (by simpa using named)]
  rfl

/-- **Section by section**, from what has been read. -/
theorem reads_file (acc : CfgFile) (names : ∀ s ∈ cfg, PlainName s.name)
    (readable : ∀ s ∈ cfg, ∀ kv ∈ s.entries, ReadablePair kv)
    (few : ∀ s ∈ acc, s.entries.length ≤ cfgMaxKeys) (room : acc.length + cfg.length ≤ cfgMaxSections) :
    Reads (cfg.flatMap sectionText) acc [] (pour acc (frontPairs cfg) ++
      (tails cfg).map fun s => addPairs s.2 (addPairs s.1.entries ⟨s.1.name, []⟩)) := by
  induction cfg generalizing acc with
  | nil =>
    have none_ : pour acc (frontPairs []) ++ (tails []).map
        (fun s => addPairs s.2 (addPairs s.1.entries ⟨s.1.name, []⟩)) = acc :=
      (List.append_nil _).trans (pour_nil few)
    rw [none_]
    exact .refl _ _
  | cons sec cfg ih =>
    rw [List.length_cons] at room
    have here := readable sec List.mem_cons_self
    have later := fun acc => ih acc (fun s mem => names s (List.mem_cons_of_mem _ mem))
      (fun s mem => readable s (List.mem_cons_of_mem _ mem))
    have split : (sec :: cfg).flatMap sectionText = headerText sec.name ++
        (pairsText sec.entries ++ (newline :: cfg.flatMap sectionText)) := by
      rw [List.flatMap_cons, sectionText]
      simp only [List.append_assoc, List.cons_append, List.nil_append]
    rw [split, tails]
    by_cases own : sec.name = globalName
    · rw [if_pos own, frontPairs_cons_global own, headerText, if_neg (not_not.mpr own), List.nil_append,
        pour_append]
      have most := length_pour acc sec.entries
      exact ((reads_poured here few _).trans (reads_newline _ _)).trans
        (later _ (pour_few few) (by omega))
    · rw [if_neg own, frontPairs_cons_named own, pour_nil few, List.map_cons]
      have read := (((reads_header own (names sec List.mem_cons_self) (by omega) _).trans
        (reads_newline _ _)).trans (reads_pairs here (Nat.zero_le _) acc _)).trans
        (reads_newline (cfg.flatMap sectionText) _)
      have few' : ∀ s ∈ acc ++ [addPairs sec.entries ⟨sec.name, []⟩], s.entries.length ≤ cfgMaxKeys := by
        intro s mem
        rcases List.mem_append.mp mem with old | new
        · exact few s old
        · cases List.mem_singleton.mp new
          exact length_addPairs _ _
      have rest := later _ few' (by
        rw [List.length_append, List.length_singleton]
        omega)
      rw [pour_last, List.append_assoc] at rest
      exact read.trans rest

theorem readBack_legible (legible : ∀ kv ∈ kvs, trimmed kv.val = kv.val) : readBack kvs = kvs := by
  refine (List.map_congr_left fun kv mem => ?_).trans (List.map_id _)
  rw [legible kv mem]
  rfl

theorem frontPairs_mem {kv : Pair} (mem : kv ∈ frontPairs cfg) :
    ∃ s ∈ cfg, s.name = globalName ∧ kv ∈ s.entries := by
  obtain ⟨s, inside, here⟩ := List.mem_flatMap.mp mem
  exact ⟨s, (List.takeWhile_sublist _).mem inside, by simpa using List.mem_takeWhile_imp inside, here⟩

theorem tails_mem {s : Section × List Pair} (mem : s ∈ tails cfg) :
    s.1 ∈ cfg ∧ s.1.name ≠ globalName ∧ ∀ kv ∈ s.2, ∃ g ∈ cfg, g.name = globalName ∧ kv ∈ g.entries := by
  induction cfg with
  | nil => cases mem
  | cons sec cfg ih =>
    have later : s ∈ tails cfg → s.1 ∈ sec :: cfg ∧ s.1.name ≠ globalName ∧
        ∀ kv ∈ s.2, ∃ g ∈ sec :: cfg, g.name = globalName ∧ kv ∈ g.entries := by
      intro mem
      obtain ⟨inside, named, pairs⟩ := ih mem
      refine ⟨List.mem_cons_of_mem _ inside, named, fun kv here => ?_⟩
      obtain ⟨g, from_, global_, there⟩ := pairs kv here
      exact ⟨g, List.mem_cons_of_mem _ from_, global_, there⟩
    rw [tails] at mem
    split at mem
    · exact later mem
    · rename_i named
      rcases List.mem_cons.mp mem with rfl | rest
      · refine ⟨List.mem_cons_self, named, fun kv here => ?_⟩
        obtain ⟨g, from_, global_, there⟩ := frontPairs_mem here
        exact ⟨g, List.mem_cons_of_mem _ from_, global_, there⟩
      · exact later rest

/-- **Written and read again.** -/
theorem parse_serialize {bufsz : Nat} (legible : ∀ s ∈ cfg, Legible s)
    (some_ : ∀ s ∈ cfg, ∀ kv ∈ s.entries, kv.key ≠ []) (few : cfg.length ≤ cfgMaxSections)
    (fits : (cfg.flatMap sectionText).length < bufsz) :
    cfgParse (cfgSerialize cfg bufsz) = regrouped cfg := by
  have readable : ∀ s ∈ cfg, ∀ kv ∈ s.entries, ReadablePair kv := fun s inside kv mem =>
    ⟨((legible s inside).pairs kv mem).key (some_ s inside kv mem), ((legible s inside).pairs kv mem).val⟩
  have text : cfgSerialize cfg bufsz = cfg.flatMap sectionText :=
    (serializeSections_fits (by rwa [List.length_nil, Nat.zero_add])).trans (List.nil_append _)
  have live : (cfg.flatMap sectionText).takeWhile (· ≠ 0) = cfg.flatMap sectionText := by
    rw [List.takeWhile_eq_self_iff]
    intro b mem
    obtain ⟨s, inside, inText⟩ := List.mem_flatMap.mp mem
    exact decide_eq_true (sectionText_live (legible s inside).name (readable s inside) b inText)
  obtain ⟨-, reads⟩ := reads_file [] (fun s mem => (legible s mem).name) readable
    (fun s mem => absurd mem List.not_mem_nil) (by rwa [List.length_nil, Nat.zero_add])
  obtain ⟨fuel, -, same⟩ := reads _ (Nat.le_refl _)
  have front : readBack (frontPairs cfg) = frontPairs cfg := readBack_legible fun kv mem => by
    obtain ⟨s, inside, -, here⟩ := frontPairs_mem mem
    exact ((legible s inside).pairs kv here).back
  rw [text, cfgParse, live, same, cfgLines_nil, regrouped, pour, if_pos rfl, addPairs, front]
  congr 1
  refine List.map_congr_left fun s mem => ?_
  obtain ⟨inside, -, pairs⟩ := tails_mem mem
  have own : readBack s.1.entries = s.1.entries :=
    readBack_legible fun kv here => ((legible s.1 inside).pairs kv here).back
  have behind : readBack s.2 = s.2 := readBack_legible fun kv here => by
    obtain ⟨g, from_, -, there⟩ := pairs kv here
    exact ((legible g from_).pairs kv there).back
  have room := (legible s.1 inside).few
  simp only [addPairs, own, behind, List.nil_append]
  rw [List.take_of_length_le room, List.take_append, List.take_of_length_le room]
  rfl

/-! ### Asked again -/

/-- The value of a key among pairs. -/
def value (kvs : List Pair) (k : Bytes) : Option Bytes := (kvs.find? (·.key = k)).map (·.val)

theorem value_eq_none : value kvs k = none ↔ ∀ kv ∈ kvs, kv.key ≠ k := by
  simp [value]

theorem value_append (kvs kvs' : List Pair) (k : Bytes) :
    value (kvs ++ kvs') k = (value kvs k).or (value kvs' k) := by
  rw [value, List.find?_append, Option.map_or]
  rfl

theorem cfgGet_cons (sec : Section) (cfg : CfgFile) (n k : Bytes) :
    cfgGet (sec :: cfg) n k = (if sec.name ≠ n then none else value sec.entries k).or (cfgGet cfg n k) := by
  unfold cfgGet value
  rw [List.findSome?_cons]
  split
  · rename_i v hit
    rw [hit]
    rfl
  · rename_i miss
    rw [miss]
    rfl

theorem cfgGet_eq_none : cfgGet cfg n k = none ↔ ∀ sec ∈ cfg, sec.name = n → ∀ kv ∈ sec.entries, kv.key ≠ k := by
  have here : ∀ sec : Section, (if sec.name ≠ n then none else value sec.entries k) = none ↔
      (sec.name = n → ∀ kv ∈ sec.entries, kv.key ≠ k) := by
    intro sec
    by_cases same : sec.name = n
    · rw [if_neg (not_not.mpr same), value_eq_none]
      exact ⟨fun none_ _ => none_, fun none_ => none_ same⟩
    · rw [if_pos same]
      exact ⟨fun _ same' => absurd same' same, fun _ => rfl⟩
  rw [cfgGet, List.findSome?_eq_none_iff]
  exact forall₂_congr fun sec _ => here sec

/-- What is at the front is found first. -/
theorem cfgGet_front {v : Bytes} (found : value (frontPairs cfg) k = some v) :
    cfgGet cfg globalName k = some v := by
  induction cfg with
  | nil => cases found
  | cons sec cfg ih =>
    rw [cfgGet_cons]
    by_cases own : sec.name = globalName
    · rw [frontPairs_cons_global own, value_append] at found
      rw [if_neg (not_not.mpr own)]
      cases here : value sec.entries k with
      | some w =>
        rw [here] at found
        exact found
      | none =>
        rw [here, Option.none_or] at found
        exact ih found
    · rw [frontPairs_cons_named own] at found
      cases found

/-- The sections of another name. -/
theorem cfgGet_tails (named : n ≠ globalName) : cfgGet cfg n k =
    (tails cfg).findSome? fun s => if s.1.name ≠ n then none else value s.1.entries k := by
  induction cfg with
  | nil => rfl
  | cons sec cfg ih =>
    rw [cfgGet_cons, tails]
    by_cases own : sec.name = globalName
    · have other : sec.name ≠ n := fun same => named (same.symm.trans own)
      rw [if_pos own, if_pos other, Option.none_or, ih]
    · rw [if_neg own, List.findSome?_cons, ih]
      dsimp only
      cases (if sec.name ≠ n then none else value sec.entries k) with
      | none => rfl
      | some v => rfl

theorem cfgGet_regrouped_global : cfgGet (regrouped cfg) globalName k =
    value ((frontPairs cfg).take cfgMaxKeys) k := by
  have rest : ∀ l : List (Section × List Pair), (∀ s ∈ l, s.1.name ≠ globalName) →
      cfgGet (l.map fun s => ⟨s.1.name, s.1.entries ++ spill s⟩) globalName k = none := by
    intro l others
    rw [cfgGet_eq_none]
    intro sec mem same
    obtain ⟨s, inside, rfl⟩ := List.mem_map.mp mem
    exact absurd same (others s inside)
  have none_ := rest (tails cfg) fun s mem => (tails_mem mem).2.1
  rw [regrouped]
  split
  · rename_i empty
    rw [List.nil_append, none_, empty]
    rfl
  · rw [List.singleton_append, cfgGet_cons, if_neg (not_not.mpr rfl), none_, Option.or_none]

theorem cfgGet_regrouped_named (named : n ≠ globalName) : cfgGet (regrouped cfg) n k =
    (tails cfg).findSome? fun s => if s.1.name ≠ n then none else value (s.1.entries ++ spill s) k := by
  have rest : cfgGet ((tails cfg).map fun s => ⟨s.1.name, s.1.entries ++ spill s⟩) n k =
      (tails cfg).findSome? fun s => if s.1.name ≠ n then none else value (s.1.entries ++ spill s) k := by
    rw [cfgGet, List.findSome?_map]
    rfl
  rw [regrouped]
  split
  · rw [List.nil_append, rest]
  · rw [List.singleton_append, cfgGet_cons, if_pos named.symm, Option.none_or, rest]

/-- The first hit with a fallback for each element is the first hit without, unless a fallback
comes first. -/
theorem findSome?_or_iff {α β : Type} {l : List α} {f g : α → Option β} :
    (l.findSome? fun a => (f a).or (g a)) = l.findSome? f ↔
      ∀ pre a post, l = pre ++ a :: post → (∀ t ∈ pre, (f t).or (g t) = none) → f a = none →
        ∀ v, g a = some v → l.findSome? f = some v := by
  constructor
  · intro same pre a post split clear none_ v found
    rw [← same, List.findSome?_eq_some_iff]
    refine ⟨pre, a, post, split, ?_, clear⟩
    rw [none_, Option.none_or, found]
  · intro fallback
    cases first : (l.findSome? fun a => (f a).or (g a)) with
    | none =>
      rw [List.findSome?_eq_none_iff] at first
      symm
      rw [List.findSome?_eq_none_iff]
      exact fun a mem => (Option.or_eq_none_iff.mp (first a mem)).1
    | some v =>
      obtain ⟨pre, a, post, split, hit, clear⟩ := List.findSome?_eq_some_iff.mp first
      cases own : f a with
      | none =>
        rw [own, Option.none_or] at hit
        exact (fallback pre a post split clear own v hit).symm
      | some w =>
        rw [own] at hit
        obtain rfl : w = v := Option.some.inj hit
        symm
        rw [List.findSome?_eq_some_iff]
        exact ⟨pre, a, post, split, own, fun t mem => (Option.or_eq_none_iff.mp (clear t mem)).1⟩

/-- **Nothing that is asked for moves.** Every key of a `global` section is among the first pairs of
the `global` sections at the front. The first pair of its key that is written behind the pairs of
another section is hidden by an earlier one, or has the value that is found anyway. -/
structure Settled (cfg : CfgFile) : Prop where
  keys : ∀ sec ∈ cfg, ∀ kv ∈ sec.entries, kv.key ≠ []
  front : ∀ sec ∈ cfg, sec.name = globalName → ∀ kv ∈ sec.entries,
    ∃ kv' ∈ (frontPairs cfg).take cfgMaxKeys, kv'.key = kv.key
  behind : ∀ before s after, tails cfg = before ++ s :: after → ∀ kv,
    (spill s).find? (·.key = kv.key) = some kv → (∀ kv' ∈ s.1.entries, kv'.key ≠ kv.key) →
    (∀ t ∈ before, t.1.name = s.1.name → ∀ kv' ∈ t.1.entries ++ spill t, kv'.key ≠ kv.key) →
    cfgGet cfg s.1.name kv.key = some kv.val

/-- Every `cfg_get` answers as before. -/
def Alike (cfg cfg' : CfgFile) : Prop := ∀ n k, cfgGet cfg' n k = cfgGet cfg n k

theorem alike_global : (∀ k, cfgGet (regrouped cfg) globalName k = cfgGet cfg globalName k) ↔
    ∀ sec ∈ cfg, sec.name = globalName → ∀ kv ∈ sec.entries,
      ∃ kv' ∈ (frontPairs cfg).take cfgMaxKeys, kv'.key = kv.key := by
  constructor
  · intro same sec mem global_ kv here
    by_contra missing
    have gone : cfgGet (regrouped cfg) globalName kv.key = none := by
      rw [cfgGet_regrouped_global, value_eq_none]
      exact fun kv' inside same' => missing ⟨kv', inside, same'⟩
    rw [same, cfgGet_eq_none] at gone
    exact gone sec mem global_ kv here rfl
  · intro front k
    rw [cfgGet_regrouped_global]
    cases found : value ((frontPairs cfg).take cfgMaxKeys) k with
    | some v =>
      refine (cfgGet_front ?_).symm
      rw [← List.take_append_drop cfgMaxKeys (frontPairs cfg), value_append, found]
      rfl
    | none =>
      rw [value_eq_none] at found
      symm
      rw [cfgGet_eq_none]
      intro sec mem global_ kv here same
      obtain ⟨kv', inside, key⟩ := front sec mem global_ kv here
      exact found kv' inside (key.trans same)

theorem alike_named : (∀ n k, n ≠ globalName → cfgGet (regrouped cfg) n k = cfgGet cfg n k) ↔
    ∀ before s after, tails cfg = before ++ s :: after → ∀ kv,
      (spill s).find? (·.key = kv.key) = some kv → (∀ kv' ∈ s.1.entries, kv'.key ≠ kv.key) →
      (∀ t ∈ before, t.1.name = s.1.name → ∀ kv' ∈ t.1.entries ++ spill t, kv'.key ≠ kv.key) →
      cfgGet cfg s.1.name kv.key = some kv.val := by
  -- both sides look through `tails cfg`, one of them with a fallback
  have split : ∀ n k, n ≠ globalName → (cfgGet (regrouped cfg) n k = cfgGet cfg n k ↔
      ∀ before s after, tails cfg = before ++ s :: after →
        (∀ t ∈ before, t.1.name = n → ∀ kv' ∈ t.1.entries ++ spill t, kv'.key ≠ k) →
        s.1.name = n → (∀ kv' ∈ s.1.entries, kv'.key ≠ k) →
        ∀ v, value (spill s) k = some v → cfgGet cfg n k = some v) := by
    intro n k named
    have apart : ∀ s : Section × List Pair,
        (if s.1.name ≠ n then none else value (s.1.entries ++ spill s) k) =
          (if s.1.name ≠ n then none else value s.1.entries k).or
            (if s.1.name ≠ n then none else value (spill s) k) := by
      intro s
      split
      · rfl
      · exact value_append ..
    have clear : ∀ t : Section × List Pair,
        ((if t.1.name ≠ n then none else value t.1.entries k).or
          (if t.1.name ≠ n then none else value (spill t) k) = none) ↔
        (t.1.name = n → ∀ kv' ∈ t.1.entries ++ spill t, kv'.key ≠ k) := by
      intro t
      rw [← apart, ← value_eq_none]
      split
      · rename_i other
        exact ⟨fun _ same => absurd same other, fun _ => rfl⟩
      · rename_i same
        exact ⟨fun none_ _ => none_, fun none_ => none_ (not_not.mp same)⟩
    rw [cfgGet_regrouped_named named, cfgGet_tails named]
    simp only [apart]
    rw [findSome?_or_iff]
    refine forall₃_congr fun before s after => forall_congr' fun _ => ?_
    simp only [clear]
    refine forall_congr' fun _ => ?_
    by_cases same : s.1.name = n
    · simp only [same, ne_eq, not_true_eq_false, if_false, value_eq_none, true_imp_iff]
    · simp only [same, ne_eq, not_false_eq_true, if_true, false_imp_iff, reduceCtorEq, imp_true_iff]
  constructor
  · intro same before s after parts kv found own earlier
    have named := (tails_mem (parts ▸ List.mem_append_right _ List.mem_cons_self)).2.1
    refine (split _ _ named).mp (same _ kv.key named) before s after parts earlier rfl own kv.val ?_
    rw [value, found]
    rfl
  · intro behind n k named
    refine (split n k named).mpr fun before s after parts earlier same own v found => ?_
    subst same
    obtain ⟨kv, first, rfl⟩ := Option.map_eq_some_iff.mp found
    obtain rfl : kv.key = k := by simpa using List.find?_some first
    exact behind before s after parts kv first own earlier

/-- A file that is read has no empty keys. -/
theorem keys_cfgParse (buf : Bytes) : ∀ sec ∈ cfgParse buf, ∀ kv ∈ sec.entries, kv.key ≠ [] := by
  refine (cfgParse_sections (P := fun sec => ∀ kv ∈ sec.entries, kv.key ≠ []) (fun _ none_ => nomatch none_)
    (fun _ _ _ none_ => nomatch none_) (fun q sec _ _ all => ?_) buf).1
  unfold addPair
  split
  · split
    · split
      · rename_i taken
        intro kv mem
        rcases List.mem_append.mp mem with old | new
        · exact all kv old
        · cases List.mem_singleton.mp new
          exact taken.2
      · exact all
    · exact all
  · exact all

/-- **Round trip.** A file that was read from any text, or set from there on, and fits the buffer
answers every `cfg_get` as before when it is written and read again, if and only if nothing that is
asked for moves. -/
theorem roundTrips_iff {bufsz : Nat} (made : Made cfg) (fits : (cfg.flatMap sectionText).length < bufsz) :
    Alike cfg (cfgParse (cfgSerialize cfg bufsz)) ↔ Settled cfg := by
  obtain ⟨legible, few⟩ := made.legible
  by_cases keys : ∀ sec ∈ cfg, ∀ kv ∈ sec.entries, kv.key ≠ []
  · rw [parse_serialize legible keys few fits]
    constructor
    · intro alike
      exact ⟨keys, alike_global.mp (alike globalName), alike_named.mp fun n k _ => alike n k⟩
    · intro settled n k
      by_cases named : n = globalName
      · subst named
        exact alike_global.mpr settled.front k
      · exact alike_named.mpr settled.behind n k named
  · refine iff_of_false (fun alike => keys ?_) fun settled => keys settled.keys
    intro sec mem kv here empty
    have gone : cfgGet (cfgParse (cfgSerialize cfg bufsz)) sec.name [] = none := by
      rw [cfgGet_eq_none]
      exact fun s inside _ kv' mem' => keys_cfgParse _ s inside kv' mem'
    rw [alike, cfgGet_eq_none] at gone
    exact gone sec mem rfl kv here empty

/-- A file with `global` pairs at the front, and one that is set. -/
theorem roundTrips_two : Alike (cfgSet (cfgParse (ascii "x=1\n[net]\nip = 10.0.0.2 \n")) (ascii "net")
      (ascii "mask") (ascii "8")).2
    (cfgParse (cfgSerialize (cfgSet (cfgParse (ascii "x=1\n[net]\nip = 10.0.0.2 \n")) (ascii "net")
      (ascii "mask") (ascii "8")).2 8192)) := by
  have read : (cfgSet (cfgParse (ascii "x=1\n[net]\nip = 10.0.0.2 \n")) (ascii "net")
      (ascii "mask") (ascii "8")).2 =
      [⟨globalName, [⟨ascii "x", ascii "1"⟩]⟩,
        ⟨ascii "net", [⟨ascii "ip", ascii "10.0.0.2"⟩, ⟨ascii "mask", ascii "8"⟩]⟩] := by
    decide +kernel
  have word : ∀ w : Bytes, w = ascii "net" ∨ w = ascii "mask" → PlainWord w := by
    rintro w (rfl | rfl)
    · exact ⟨by decide, by decide⟩
    · exact ⟨by decide, by decide⟩
  refine (roundTrips_iff (.set (.parse _) (word _ (.inl rfl)) (word _ (.inr rfl))
    ⟨⟨by decide, by decide, by decide⟩, by decide⟩) ?_).mpr ?_
  · rw [read]
    decide
  · rw [read]
    refine ⟨by decide, by decide, fun before s after parts kv found => ?_⟩
    have one : ∀ s ∈ tails [⟨globalName, [⟨ascii "x", ascii "1"⟩]⟩,
        ⟨ascii "net", [⟨ascii "ip", ascii "10.0.0.2"⟩, ⟨ascii "mask", ascii "8"⟩]⟩], spill s = [] := by
      decide
    rw [parts] at one
    rw [one s (List.mem_append_right _ List.mem_cons_self)] at found
    cases found

/-- A `global` section that is not the first. -/
theorem global_moves :
    ((cfgParse (ascii "[a]\nx=1\n[global]\ny=2\n")).flatMap sectionText).length < 8192 ∧
    ¬Alike (cfgParse (ascii "[a]\nx=1\n[global]\ny=2\n"))
      (cfgParse (cfgSerialize (cfgParse (ascii "[a]\nx=1\n[global]\ny=2\n")) 8192)) := by
  have before : cfgGet (cfgParse (ascii "[a]\nx=1\n[global]\ny=2\n")) (ascii "global") (ascii "y") =
      some (ascii "2") := by
    decide +kernel
  have after : cfgGet (cfgParse (cfgSerialize (cfgParse (ascii "[a]\nx=1\n[global]\ny=2\n")) 8192))
      (ascii "global") (ascii "y") = none := by
    decide +kernel
  refine ⟨by decide +kernel, fun alike => ?_⟩
  rw [alike, before] at after
  cases after

end AtmKoala.Config
