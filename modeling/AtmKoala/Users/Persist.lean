import AtmKoala.Config.Text
import AtmKoala.Package.Texts
import AtmKoala.Users.Session

/-!
Accounts across a reboot.

* `PlainAccount`: the texts of an account that can be read back from a file.
* `reboot_users`: behind a reboot there are the three default accounts, whatever was saved of
  accounts with roles.
* `restored_iff`: the accounts of the last `user_save` are restored if and only if they are the
  three defaults, as they are made at the first boot.
-/

namespace AtmKoala.Users

open Lib Package Config

variable {s : State} {users : List Account} {name : Bytes} {cfg : CfgFile} {u : Account}

/-! ### Texts -/

/-- A text of at most `n` bytes that can be read back. -/
structure PlainText (n : Nat) (val : Bytes) : Prop where
  short : val.length ≤ n
  plain : ∀ b ∈ val, b ≠ 0 ∧ isBreak b = false
  front : ∀ b ∈ val.head?, isBlank b = false

theorem PlainText.cut {n m : Nat} {val : Bytes} (text : PlainText n val) (cap : Nat)
    (within : cap - 1 ≤ m) : PlainText m (copyText val cap) := by
  refine ⟨?_, fun b mem => text.plain b (List.mem_of_mem_take mem), fun b first => ?_⟩
  · rw [copyText, List.length_take]
    omega
  · refine text.front b ?_
    rw [copyText, List.head?_take] at first
    split at first
    · cases first
    · exact first

/-- A text of bytes that are neither blank nor a break. -/
theorem plainText_of_all {n : Nat} {val : Bytes} (short : val.length ≤ n)
    (all : ∀ b ∈ val, b ≠ 0 ∧ isBreak b = false ∧ isBlank b = false) : PlainText n val :=
  ⟨short, fun b mem => ⟨(all b mem).1, (all b mem).2.1⟩,
    fun b first => (all b (List.mem_of_mem_head? first)).2.2⟩

theorem hexByte_text {d : Nat} (small : d < 16) :
    hexByte d ≠ 0 ∧ isBreak (hexByte d) = false ∧ isBlank (hexByte d) = false := by
  have all : ∀ d < 16, hexByte d ≠ 0 ∧ isBreak (hexByte d) = false ∧
      isBlank (hexByte d) = false := by decide
  exact all d small

theorem plainText_salt (name : Bytes) (uid : Nat) (counter : UInt32) :
    PlainText 8 (makeSalt name uid counter) := by
  have fold : ∀ (l : List Nat) (x : Bytes × UInt32), (∀ b ∈ x.1, b ≠ 0 ∧ isBreak b = false ∧
      isBlank b = false) →
      let y := l.foldl (fun (x : Bytes × UInt32) i =>
        (x.1 ++ [hexByte ((x.2 >>> ((i.toUInt32 &&& 7) * 4)) &&& 15).toNat],
          (x.2 <<< 5) ||| (x.2 >>> 27))) x
      y.1.length = x.1.length + l.length ∧
        ∀ b ∈ y.1, b ≠ 0 ∧ isBreak b = false ∧ isBlank b = false := by
    intro l
    induction l with
    | nil => exact fun x all => ⟨rfl, all⟩
    | cons i l ih =>
      intro x all
      have small : ((x.2 >>> ((i.toUInt32 &&& 7) * 4)) &&& 15).toNat < 16 := by
        rw [UInt32.toNat_and]
        exact Nat.lt_of_le_of_lt Nat.and_le_right (by decide)
      obtain ⟨length, rest⟩ := ih (x.1 ++ [hexByte ((x.2 >>> ((i.toUInt32 &&& 7) * 4)) &&&
        15).toNat], (x.2 <<< 5) ||| (x.2 >>> 27)) (by
          intro b mem
          rcases List.mem_append.mp mem with old | new
          · exact all b old
          · cases List.mem_singleton.mp new
            exact hexByte_text small)
      refine ⟨?_, rest⟩
      rw [List.foldl_cons, length, List.length_append]
      simp only [List.length_cons, List.length_nil]
      omega
  obtain ⟨length, all⟩ := fold (List.range 8) ([], name.foldl (fun h b =>
    (h ^^^ b.toUInt32) * 16777619) (2166136261 ^^^ counter) ^^^ (uid.toUInt32 * 2654435761))
    (fun _ mem => nomatch mem)
  refine plainText_of_all ?_ all
  rw [makeSalt]
  exact Nat.le_of_eq length

theorem plainText_hash (password salt : Bytes) :
    PlainText 64 (passwordHash password salt) ∧ (passwordHash password salt).length = 64 := by
  have digest : ∀ ctx : Sha256, (sha256Final ctx).length = 32 := by
    intro ctx
    unfold sha256Final
    rfl
  have length : (passwordHash password salt).length = 64 := by
    unfold passwordHash
    dsimp only
    rw [List.length_flatMap]
    generalize sha256Update (sha256Update (sha256Update sha256Init salt) (ascii ":")) password = ctx
    have two : ∀ l : Bytes, (l.map fun b =>
        ([hexByte (b.toNat / 16), hexByte (b.toNat % 16)] : Bytes).length).sum = 2 * l.length := by
      intro l
      induction l with
      | nil => rfl
      | cons b l ih =>
        rw [List.map_cons, List.sum_cons, ih]
        simp only [List.length_cons, List.length_nil]
        omega
    rw [two, digest]
  refine ⟨plainText_of_all (Nat.le_of_eq length) fun b mem => ?_, length⟩
  unfold passwordHash at mem
  obtain ⟨d, -, inside⟩ := List.mem_flatMap.mp mem
  have small := d.toNat_lt
  simp only [List.mem_cons, List.not_mem_nil, or_false] at inside
  rcases inside with rfl | rfl
  · exact hexByte_text (by omega)
  · exact hexByte_text (by omega)

/-! ### What a file holds -/

/-- The values of a file that has been read are texts of at most 127 bytes. -/
def PlainValues (cfg : CfgFile) : Prop :=
  ∀ sec ∈ cfg, ∀ kv ∈ sec.entries, PlainText 127 kv.val

theorem plainText_scanValue {p : Bytes} (live : ∀ b ∈ p, b ≠ 0) : PlainText 127 (scanValue p) := by
  have plain := plainValue_scanValue live
  exact ⟨Nat.le_of_lt_succ plain.short, plain.plain, plain.front⟩

theorem plain_addPair {p : Bytes} {sec : Section} (live : ∀ b ∈ p, b ≠ 0)
    (all : ∀ kv ∈ sec.entries, PlainText 127 kv.val) :
    ∀ kv ∈ (addPair p sec).entries, PlainText 127 kv.val := by
  have left := scanKey_rest [] p
  unfold addPair
  split
  · split
    · rename_i key c rest scan
      rw [scan] at left
      split
      · intro kv mem
        rcases List.mem_append.mp mem with old | new
        · exact all kv old
        · cases List.mem_singleton.mp new
          exact plainText_scanValue fun b inside => live b (left b (List.mem_cons_of_mem _ inside))
      · exact all
    · exact all
  · exact all

/-- **What is read** of any file. -/
theorem plain_cfgParse (buf : Bytes) : PlainValues (cfgParse buf) :=
  (cfgParse_sections (P := fun sec => ∀ kv ∈ sec.entries, PlainText 127 kv.val) (fun _ none_ => nomatch none_)
    (fun _ _ _ none_ => nomatch none_) (fun _ _ live _ all => plain_addPair live all) buf).1

/-! ### Accounts -/

/-- **An account that can be read back**, but for its role. -/
structure PlainAccount (u : Account) : Prop where
  name : validName u.name = true
  uid : u.uid < 2 ^ 32
  gid : u.gid < 2 ^ 32
  home : PlainText 95 u.home
  shell : PlainText 31 u.shell
  salt : PlainText 8 u.salt
  passhash : PlainText 64 u.passhash

theorem validName_bytes (valid : validName name = true) : name ≠ [] ∧ name.length ≤ 31 ∧
    ∀ b ∈ name, (isLetter b || isDigit b || b = 95 || b = 45) = true := by
  unfold validName at valid
  split at valid
  · cases valid
  · rw [Bool.and_eq_true, Bool.and_eq_true, decide_eq_true_eq, List.all_eq_true] at valid
    refine ⟨List.cons_ne_nil _ _, valid.2, fun b mem => ?_⟩
    simpa using valid.1.2 b mem

/-- The bytes of a name. -/
theorem validName_plain (valid : validName name = true) :
    ∀ b ∈ name, b ≠ 0 ∧ isBreak b = false ∧ isBlank b = false ∧ b ≠ 93 ∧ b ≠ newline := by
  intro b mem
  have byte := (validName_bytes valid).2.2 b mem
  refine ⟨?_, ?_, ?_, ?_, ?_⟩
  · rintro rfl
    exact absurd byte (by decide)
  · rw [isBreak, Bool.or_eq_false_iff, decide_eq_false_iff_not, decide_eq_false_iff_not]
    constructor
    all_goals
      rintro rfl
      exact absurd byte (by decide)
  · rw [isBlank, Bool.or_eq_false_iff, decide_eq_false_iff_not, decide_eq_false_iff_not]
    constructor
    all_goals
      rintro rfl
      exact absurd byte (by decide)
  · rintro rfl
    exact absurd byte (by decide)
  · rintro rfl
    exact absurd byte (by decide)

theorem plainAccount_initialise {role : Int} {password : Bytes} {uid : Nat} {counter : UInt32}
    (valid : validName name = true) (small : uid < 2 ^ 32) :
    PlainAccount (initialiseAccount name role password uid counter) := by
  have bytes := validName_plain valid
  have short := (validName_bytes valid).2.1
  have copied := copyText_name valid
  have folder : ∀ b ∈ ascii "/home/", b ≠ 0 ∧ isBreak b = false ∧ isBlank b = false := by decide
  have folderLength : (ascii "/home/").length = 6 := by decide
  have shell : PlainText 31 (ascii "/bin/sh") := plainText_of_all (by decide) (by decide)
  refine ⟨?_, small, ?_, ?_, shell, plainText_salt _ _ _, (plainText_hash _ _).1⟩
  · show validName (copyText name (userNameMax + 1)) = true
    rw [copied, valid]
  · show (if uid = userUidRoot then 0 else uid) < 2 ^ 32
    split
    · decide
    · exact small
  · show PlainText 95 (if uid = userUidRoot then ascii "/root" else ascii "/home/" ++ name)
    split
    · exact plainText_of_all (by decide) (by decide)
    · refine plainText_of_all ?_ fun b mem => ?_
      · rw [List.length_append, folderLength]
        omega
      · rcases List.mem_append.mp mem with inFolder | inName
        · exact folder b inFolder
        · exact ⟨(bytes b inName).1, (bytes b inName).2.1, (bytes b inName).2.2.1⟩

theorem kstrtou_lt (text : Bytes) : kstrtou text < 2 ^ 32 := by
  have fold : ∀ (l : Bytes) (n : Nat), n < 2 ^ 32 →
      l.foldl (fun n b => u32 (n * 10 + (b.toNat - 48))) n < 2 ^ 32 := by
    intro l
    induction l with
    | nil => exact fun n small => small
    | cons b l ih => exact fun n _ => ih _ (Nat.mod_lt _ (by decide))
  exact fold _ _ (by decide)

theorem plainAccount_loaded {junk : Int} (values : PlainValues cfg)
    (loaded : loadedAccount cfg junk name = some u) : PlainAccount u := by
  have get : ∀ {key : String} {val : Bytes}, cfgGet cfg name (ascii key) = some val →
      PlainText 127 val := by
    intro key val found
    obtain ⟨sec, inside, kv, pair, -, -, rfl⟩ := mem_of_cfgGet found
    exact values sec inside kv pair
  have getD : ∀ {key : String} {other : Bytes}, PlainText 127 other →
      PlainText 127 ((cfgGet cfg name (ascii key)).getD other) := by
    intro key other plain
    cases found : cfgGet cfg name (ascii key) with
    | none => exact plain
    | some val => exact get found
  unfold loadedAccount at loaded
  split at loaded
  · cases loaded
  · rename_i valid
    rw [Bool.not_eq_true, Bool.not_eq_false'] at valid
    dsimp only at loaded
    split at loaded
    · rename_i uid gid role salt hash _ _ _ saltText hashText
      split at loaded
      · cases loaded
      · cases loaded
        refine ⟨?_, kstrtou_lt _, kstrtou_lt _, ?_, ?_, (get saltText).cut _ (by decide),
          (get hashText).cut _ (by decide)⟩
        · show validName (copyText name (userNameMax + 1)) = true
          rw [copyText_name valid, valid]
        · exact (getD (plainText_of_all (by decide) (by decide))).cut _ (by decide)
        · exact (getD (plainText_of_all (by decide) (by decide))).cut _ (by decide)
    · cases loaded

/-- **What accounts and configuration are** once `user_init` has run. -/
structure Kept (s : State) : Prop where
  few : s.users.length ≤ userMax
  plain : ∀ u ∈ s.users, PlainAccount u
  saved : s.usercfg = savedConfig s.users

theorem kept_save (stored : Bool) (few : s.users.length ≤ userMax)
    (plain : ∀ u ∈ s.users, PlainAccount u) : Kept (userSave stored s).2 := ⟨few, plain, rfl⟩

theorem plain_loadAccounts (junk : Nat → Int) (values : PlainValues cfg) :
    (loadAccounts cfg junk).length ≤ userMax ∧ ∀ u ∈ loadAccounts cfg junk, PlainAccount u := by
  have fold : ∀ (secs : List Section) (users : List Account), users.length ≤ userMax →
      (∀ u ∈ users, PlainAccount u) → (secs.foldl (addLoaded cfg junk) users).length ≤ userMax ∧
        ∀ u ∈ secs.foldl (addLoaded cfg junk) users, PlainAccount u := by
    intro secs
    induction secs with
    | nil => exact fun users few plain => ⟨few, plain⟩
    | cons sec secs ih =>
      intro users few plain
      have step : (addLoaded cfg junk users sec).length ≤ userMax ∧
          ∀ u ∈ addLoaded cfg junk users sec, PlainAccount u := by
        unfold addLoaded
        split
        · exact ⟨few, plain⟩
        · split
          · exact ⟨few, plain⟩
          · rename_i room _ u loaded
            refine ⟨?_, fun v mem => ?_⟩
            · rw [List.length_append, List.length_singleton]
              omega
            · rcases List.mem_append.mp mem with old | new
              · exact plain v old
              · cases List.mem_singleton.mp new
                exact plainAccount_loaded values loaded
      exact ih _ step.1 step.2
  exact fold _ _ (Nat.zero_le _) fun _ mem => nomatch mem

theorem plain_addDefault (role : Int) {uid : Nat} (valid : validName name = true)
    (small : uid < 2 ^ 32) (few : s.users.length ≤ userMax)
    (plain : ∀ u ∈ s.users, PlainAccount u) :
    (addDefault name role uid s).users.length ≤ userMax ∧
      ∀ u ∈ (addDefault name role uid s).users, PlainAccount u := by
  unfold addDefault
  split
  · rename_i room
    refine ⟨?_, fun u mem => ?_⟩
    · rw [List.length_append, List.length_singleton]
      exact room.2
    · rcases List.mem_append.mp mem with old | new
      · exact plain u old
      · cases List.mem_singleton.mp new
        exact plainAccount_initialise valid small
  · exact ⟨few, plain⟩

theorem kept_enter {i : Nat} (kept : Kept s) : Kept (enter i s) := by
  unfold enter
  split
  · exact ⟨kept.few, kept.plain, kept.saved⟩
  · exact kept

/-- **`user_init`** from any file. -/
theorem kept_init {file : Option (Option Bytes)} (junk : Nat → Int) (stored : Bool)
    (values : PlainValues (initConfig file s.usercfg)) :
    Kept (userInit file junk stored s).2 := by
  obtain ⟨few, plain⟩ := plain_loadAccounts junk values
  unfold userInit
  dsimp only
  obtain ⟨few₁, plain₁⟩ := plain_addDefault (s := ⟨loadAccounts (initConfig file s.usercfg) junk,
    none, s.saltCounter, initConfig file s.usercfg, s.sessionUid, s.sessionGid⟩) roleAdmin
    (show validName rootName = true by decide) (show userUidRoot < 2 ^ 32 by decide) few plain
  obtain ⟨few₂, plain₂⟩ := plain_addDefault roleUser (show validName userName = true by decide)
    (show userUidFirst < 2 ^ 32 by decide) few₁ plain₁
  obtain ⟨few₃, plain₃⟩ := plain_addDefault roleGuest (show validName guestName = true by decide)
    (show userUidGuest < 2 ^ 32 by decide) few₂ plain₂
  split
  · exact kept_save stored few₃ plain₃
  · exact kept_enter (kept_save stored few₃ plain₃)

/-- The calls that change accounts. -/
def OnAccounts (_ : State) : Call → Prop
  | .add .. => True
  | .del .. => True
  | .setPassword .. => True
  | .setRole .. => True
  | _ => False

theorem mem_modify {f : Account → Account} {idx : Nat} (mem : u ∈ users.modify idx f) :
    ∃ v ∈ users, u = v ∨ u = f v := by
  obtain ⟨i, at_⟩ := List.mem_iff_getElem?.mp mem
  rw [List.getElem?_modify] at at_
  obtain ⟨v, there, same⟩ := Option.map_eq_some_iff.mp at_
  refine ⟨v, List.mem_of_getElem? there, ?_⟩
  split at same
  · exact .inr same.symm
  · exact .inl same.symm

/-- **One call** on the accounts. -/
theorem kept_step {c : Call} (kept : Kept s) (account : OnAccounts s c) :
    Kept (perform c s).2 := by
  cases c with
  | init | login | logout => cases account
  | add name role password stored =>
    show Kept (userAdd name role password stored s).2
    unfold userAdd
    split
    · exact kept
    · split
      · exact kept
      · rename_i fine
        split
        · exact kept
        · rename_i room
          split
          · exact kept
          · simp only [not_or, Bool.not_eq_true', Bool.not_eq_false] at fine room
            refine kept_save stored ?_ fun u mem => ?_
            · show (s.users ++ _).length ≤ userMax
              rw [List.length_append, List.length_singleton]
              omega
            · rcases List.mem_append.mp mem with old | new
              · exact kept.plain u old
              · cases List.mem_singleton.mp new
                exact plainAccount_initialise fine.1 (nextUid_lt role kept.few)
  | del name stored =>
    show Kept (userDel name stored s).2
    unfold userDel
    split
    · exact kept
    · rename_i idx _
      split
      · exact kept
      · have part : (s.users.eraseIdx idx).Sublist s.users := List.eraseIdx_sublist ..
        exact kept_save stored (part.length_le.trans kept.few)
          fun u mem => kept.plain u (part.mem mem)
  | setRole name role stored =>
    show Kept (userSetRole name role stored s).2
    unfold userSetRole
    split
    · exact kept
    · split
      · exact kept
      · refine kept_save stored ?_ fun u mem => ?_
        · show (s.users.modify _ _).length ≤ userMax
          rw [List.length_modify]
          exact kept.few
        · obtain ⟨v, inside, rfl | rfl⟩ := mem_modify mem
          · exact kept.plain _ inside
          · have plain := kept.plain v inside
            exact ⟨plain.name, plain.uid, plain.gid, plain.home, plain.shell, plain.salt,
              plain.passhash⟩
  | setPassword name password stored =>
    show Kept (userSetPassword name password stored s).2
    unfold userSetPassword
    split
    · split
      · exact kept
      · refine kept_save stored ?_ fun u mem => ?_
        · show (s.users.modify _ _).length ≤ userMax
          rw [List.length_modify]
          exact kept.few
        · obtain ⟨v, inside, rfl | rfl⟩ := mem_modify mem
          · exact kept.plain _ inside
          · have plain := kept.plain v inside
            exact ⟨plain.name, plain.uid, plain.gid, plain.home, plain.shell, plainText_salt _ _ _,
              (plainText_hash _ _).1⟩
    · exact kept

/-! ### The size of the file -/

/-- The most that the value of a key takes. -/
def valMax (key : Bytes) : Nat :=
  if key = ascii "home" then 95
  else if key = ascii "password" then 64
  else if key = ascii "shell" then 31
  else 10

def weight (kv : Pair) : Nat := kv.key.length + valMax kv.key + 2

def sectionWeight (sec : Section) : Nat :=
  sec.name.length + 4 + (sec.entries.map weight).sum

def fileWeight (cfg : CfgFile) : Nat := (cfg.map sectionWeight).sum

/-- The file is not longer than its weight. -/
theorem length_sectionText (short : ∀ sec ∈ cfg, ∀ kv ∈ sec.entries, kv.val.length ≤ valMax kv.key) :
    (cfg.flatMap sectionText).length ≤ fileWeight cfg := by
  have pairs : ∀ kvs : List Pair, (∀ kv ∈ kvs, kv.val.length ≤ valMax kv.key) →
      (pairsText kvs).length ≤ (kvs.map weight).sum := by
    intro kvs
    induction kvs with
    | nil => exact fun _ => Nat.le_refl _
    | cons kv kvs ih =>
      intro all
      have rest := ih fun kv mem => all kv (List.mem_cons_of_mem _ mem)
      have first := all kv List.mem_cons_self
      have length : (pairText kv).length = kv.key.length + kv.val.length + 2 := by
        rw [pairText]
        simp only [List.length_append, List.length_singleton]
        omega
      rw [List.map_cons, List.sum_cons, weight]
      show (pairText kv ++ pairsText kvs).length ≤ _
      rw [List.length_append, length]
      omega
  induction cfg with
  | nil => exact Nat.le_refl _
  | cons sec cfg ih =>
    have rest := ih fun sec mem => short sec (List.mem_cons_of_mem _ mem)
    have first := pairs sec.entries (short sec List.mem_cons_self)
    have header : (headerText sec.name).length ≤ sec.name.length + 3 := by
      unfold headerText
      split
      · simp only [List.length_append, List.length_cons, List.length_nil]
        exact Nat.le_refl _
      · exact Nat.zero_le _
    rw [List.flatMap_cons, List.length_append, fileWeight, List.map_cons, List.sum_cons,
      sectionWeight, sectionText, List.length_append, List.length_append, List.length_singleton]
    unfold fileWeight at rest
    omega

theorem setKey_weight (key val : Bytes) (sec : Section) :
    sectionWeight (setKey key val sec).2 ≤ sectionWeight sec + weight ⟨key, val⟩ := by
  have same : ∀ kvs : List Pair, (onFirst (·.key = key) ({ · with val := val }) kvs).map weight =
      kvs.map weight := by
    intro kvs
    induction kvs with
    | nil => rfl
    | cons kv kvs ih =>
      rw [onFirst]
      split
      · rfl
      · rw [List.map_cons, List.map_cons, ih]
  unfold setKey
  split
  · dsimp only
    rw [sectionWeight, same]
    exact Nat.le_add_right _ _
  · split
    · exact Nat.le_add_right _ _
    · show sec.name.length + 4 + ((sec.entries ++ [(⟨key, val⟩ : Pair)]).map weight).sum ≤ _
      rw [sectionWeight, List.map_append, List.sum_append, List.map_singleton, List.sum_singleton]
      omega

/-- A name that `cfg_set` makes a new section for. -/
def Open (cfg : CfgFile) (name : Bytes) : Prop :=
  name ∉ cfg.map (·.name) ∧ cfg.length < cfgMaxSections

/-- What `put` does to the names, and to the weight. -/
theorem put_names (name : Bytes) (cfg : CfgFile) (kv : String × Bytes) :
    ((put name cfg kv).map (·.name) = cfg.map (·.name) ++ [name] ∧ Open cfg name ∧
        fileWeight (put name cfg kv) ≤
          fileWeight cfg + (name.length + 4) + weight ⟨ascii kv.1, kv.2⟩) ∨
      ((put name cfg kv).map (·.name) = cfg.map (·.name) ∧ ¬Open cfg name ∧
        fileWeight (put name cfg kv) ≤ fileWeight cfg + weight ⟨ascii kv.1, kv.2⟩) := by
  have names : ∀ (p : Section → Bool) (cfg : CfgFile),
      (onFirst p (fun sec => (setKey (ascii kv.1) kv.2 sec).2) cfg).map (·.name) =
        cfg.map (·.name) := by
    intro p cfg
    induction cfg with
    | nil => rfl
    | cons sec cfg ih =>
      rw [onFirst]
      split
      · rw [List.map_cons, List.map_cons, setKey_name]
      · rw [List.map_cons, List.map_cons, ih]
  have heavier : ∀ (p : Section → Bool) (cfg : CfgFile),
      fileWeight (onFirst p (fun sec => (setKey (ascii kv.1) kv.2 sec).2) cfg) ≤
        fileWeight cfg + weight ⟨ascii kv.1, kv.2⟩ := by
    intro p cfg
    induction cfg with
    | nil => exact Nat.zero_le _
    | cons sec cfg ih =>
      have one := setKey_weight (ascii kv.1) kv.2 sec
      unfold fileWeight at ih ⊢
      rw [onFirst]
      split
      · rw [List.map_cons, List.map_cons, List.sum_cons, List.sum_cons]
        omega
      · rw [List.map_cons, List.map_cons, List.sum_cons, List.sum_cons]
        omega
  have known : cfg.any (·.name = name) = true ↔ name ∈ cfg.map (·.name) := by
    rw [List.any_eq_true, List.mem_map]
    exact exists_congr fun sec => and_congr_right fun _ => decide_eq_true_iff
  unfold put cfgSet
  dsimp only
  split
  · rename_i there
    exact .inr ⟨names _ _, fun opened => opened.1 (known.mp there), heavier _ _⟩
  · rename_i absent
    split
    · rename_i full
      exact .inr ⟨rfl, fun opened => absurd opened.2 (by omega), Nat.le_add_right _ _⟩
    · rename_i room
      refine .inl ⟨(names _ _).trans ?_, ⟨fun mem => absent (known.mpr mem), by omega⟩,
        (heavier _ _).trans ?_⟩
      · rw [List.map_append, List.map_singleton]
      · rw [fileWeight, List.map_append, List.sum_append, List.map_singleton, List.sum_singleton]
        show _ + (name.length + 4 + 0) + _ ≤ _
        exact Nat.le_refl _

/-- Behind `put` the section is there, or there is no room for it. -/
theorem not_open_put (name : Bytes) (cfg : CfgFile) (kv : String × Bytes) :
    ¬Open (put name cfg kv) name := by
  rcases put_names name cfg kv with ⟨names, -, -⟩ | ⟨names, closed, -⟩
  · rintro ⟨absent, -⟩
    rw [names] at absent
    exact absent (List.mem_append_right _ (List.mem_singleton_self _))
  · rintro ⟨absent, room⟩
    have length := congrArg List.length names
    rw [List.length_map, List.length_map] at length
    rw [names] at absent
    exact closed ⟨absent, length ▸ room⟩

/-- The keys of one section cost their weight, and its name once. -/
theorem puts_weight (name : Bytes) (cfg : CfgFile) (kvs : List (String × Bytes)) :
    fileWeight (kvs.foldl (put name) cfg) ≤
      fileWeight cfg + (name.length + 4) + (kvs.map fun kv => weight ⟨ascii kv.1, kv.2⟩).sum := by
  have closed : ∀ (kvs : List (String × Bytes)) (cfg : CfgFile), ¬Open cfg name →
      fileWeight (kvs.foldl (put name) cfg) ≤
        fileWeight cfg + (kvs.map fun kv => weight ⟨ascii kv.1, kv.2⟩).sum := by
    intro kvs
    induction kvs with
    | nil => exact fun _ _ => Nat.le_refl _
    | cons kv kvs ih =>
      intro cfg shut
      have rest := ih _ (not_open_put name cfg kv)
      rcases put_names name cfg kv with ⟨-, opened, -⟩ | ⟨-, -, first⟩
      · exact absurd opened shut
      · rw [List.foldl_cons, List.map_cons, List.sum_cons]
        omega
  cases kvs with
  | nil => exact Nat.le_add_right _ _
  | cons kv kvs =>
    have rest := closed kvs _ (not_open_put name cfg kv)
    rw [List.foldl_cons, List.map_cons, List.sum_cons]
    rcases put_names name cfg kv with ⟨-, -, first⟩ | ⟨-, -, first⟩
    · omega
    · omega

theorem accountPairs_weight (u : Account) :
    ((accountPairs u).map fun kv => weight ⟨ascii kv.1, kv.2⟩).sum = 293 := by
  show weight ⟨ascii "uid", kuitoa u.uid⟩ + (weight ⟨ascii "gid", kuitoa u.gid⟩ +
    (weight ⟨ascii "role", userRoleName u.role⟩ + (weight ⟨ascii "home", u.home⟩ +
    (weight ⟨ascii "shell", u.shell⟩ + (weight ⟨ascii "salt", u.salt⟩ +
    (weight ⟨ascii "password", u.passhash⟩ + (weight ⟨ascii "active", ascii "1"⟩ + 0))))))) = 293
  have sizes : ∀ val, weight ⟨ascii "uid", val⟩ = 15 ∧ weight ⟨ascii "gid", val⟩ = 15 ∧
      weight ⟨ascii "role", val⟩ = 16 ∧ weight ⟨ascii "home", val⟩ = 101 ∧
      weight ⟨ascii "shell", val⟩ = 38 ∧ weight ⟨ascii "salt", val⟩ = 16 ∧
      weight ⟨ascii "password", val⟩ = 74 ∧ weight ⟨ascii "active", val⟩ = 18 := by
    have keys : (ascii "uid").length + valMax (ascii "uid") + 2 = 15 ∧
        (ascii "gid").length + valMax (ascii "gid") + 2 = 15 ∧
        (ascii "role").length + valMax (ascii "role") + 2 = 16 ∧
        (ascii "home").length + valMax (ascii "home") + 2 = 101 ∧
        (ascii "shell").length + valMax (ascii "shell") + 2 = 38 ∧
        (ascii "salt").length + valMax (ascii "salt") + 2 = 16 ∧
        (ascii "password").length + valMax (ascii "password") + 2 = 74 ∧
        (ascii "active").length + valMax (ascii "active") + 2 = 18 := by decide
    exact fun _ => keys
  rw [(sizes _).1, (sizes _).2.1, (sizes _).2.2.1, (sizes _).2.2.2.1, (sizes _).2.2.2.2.1,
    (sizes _).2.2.2.2.2.1, (sizes _).2.2.2.2.2.2.1, (sizes _).2.2.2.2.2.2.2]

/-- What saving does to the names of the sections. -/
theorem puts_names (name : Bytes) (kvs : List (String × Bytes)) (cfg : CfgFile)
    (few : cfg.length ≤ cfgMaxSections) :
    (kvs.foldl (put name) cfg).length ≤ cfgMaxSections ∧
      cfg.map (·.name) <+: (kvs.foldl (put name) cfg).map (·.name) := by
  induction kvs generalizing cfg with
  | nil => exact ⟨few, List.prefix_refl _⟩
  | cons kv kvs ih =>
    have step : (put name cfg kv).length ≤ cfgMaxSections ∧
        cfg.map (·.name) <+: (put name cfg kv).map (·.name) := by
      rcases put_names name cfg kv with ⟨names, opened, -⟩ | ⟨names, -, -⟩
      · have length := congrArg List.length names
        have room := opened.2
        rw [List.length_map, List.length_append, List.length_map, List.length_singleton] at length
        exact ⟨by omega, names ▸ List.prefix_append _ _⟩
      · have length := congrArg List.length names
        rw [List.length_map, List.length_map] at length
        exact ⟨length ▸ few, names ▸ List.prefix_refl _⟩
    obtain ⟨short, kept⟩ := ih _ step.1
    exact ⟨short, step.2.trans kept⟩

/-- **The file fits** the buffers, and begins with `meta`. -/
theorem savedConfig_fits (few : users.length ≤ userMax)
    (names : ∀ u ∈ users, u.name.length ≤ 31) :
    fileWeight (savedConfig users) ≤ 4946 ∧ (savedConfig users).length ≤ cfgMaxSections ∧
      [metaName] <+: (savedConfig users).map (·.name) := by
  have fold : ∀ (l : List Account) (cfg : CfgFile), (∀ u ∈ l, u.name.length ≤ 31) →
      cfg.length ≤ cfgMaxSections →
      fileWeight (l.foldl saveAccount cfg) ≤ fileWeight cfg + 328 * l.length ∧
        (l.foldl saveAccount cfg).length ≤ cfgMaxSections ∧
        cfg.map (·.name) <+: (l.foldl saveAccount cfg).map (·.name) := by
    intro l
    induction l with
    | nil => exact fun cfg _ few => ⟨Nat.le_refl _, few, List.prefix_refl _⟩
    | cons u l ih =>
      intro cfg short few
      have step : fileWeight (saveAccount cfg u) ≤ fileWeight cfg + 328 ∧
          (saveAccount cfg u).length ≤ cfgMaxSections ∧
          cfg.map (·.name) <+: (saveAccount cfg u).map (·.name) := by
        unfold saveAccount
        split
        · have heavier := puts_weight u.name cfg (accountPairs u)
          have name := short u List.mem_cons_self
          rw [accountPairs_weight] at heavier
          exact ⟨by omega, puts_names _ _ _ few⟩
        · exact ⟨Nat.le_add_right _ _, few, List.prefix_refl _⟩
      obtain ⟨heavier, fewer, kept⟩ := ih _ (fun u mem => short u (List.mem_cons_of_mem _ mem))
        step.2.1
      rw [List.foldl_cons, List.length_cons]
      exact ⟨by omega, fewer, step.2.2.trans kept⟩
  have start : put metaName [] ("format", ascii "1") =
      [⟨metaName, [⟨ascii "format", ascii "1"⟩]⟩] := by decide
  have weight : fileWeight [⟨metaName, [⟨ascii "format", ascii "1"⟩]⟩] = 26 := by decide
  obtain ⟨heavier, fewer, kept⟩ := fold users _ names
    (show (put metaName [] ("format", ascii "1")).length ≤ cfgMaxSections by rw [start]; decide)
  rw [start] at heavier kept
  rw [weight] at heavier
  unfold userMax at few
  rw [savedConfig, start]
  rw [start] at fewer
  exact ⟨by omega, fewer, kept⟩

/-! ### The reboot -/

theorem PlainText.value {n : Nat} {val : Bytes} (text : PlainText n val) (short : n < cfgValLen) :
    PlainValue val := ⟨Nat.lt_of_le_of_lt text.short short, text.plain, text.front⟩

theorem plainText_number {n : Nat} (small : n < 2 ^ 32) : PlainText 10 (kuitoa n) := by
  refine plainText_of_all (length_kuitoa (by omega)) fun b mem => ?_
  have digit := kuitoa_digits n b mem
  refine ⟨?_, ?_, ?_⟩
  · rintro rfl
    exact absurd digit (by decide)
  · exact (isDigit_plain digit).2.2
  · rw [isBlank, Bool.or_eq_false_iff, decide_eq_false_iff_not, decide_eq_false_iff_not]
    constructor
    all_goals
      rintro rfl
      exact absurd digit (by decide)

theorem plainText_role (role : Int) : PlainText 10 (userRoleName role) := by
  unfold userRoleName
  split
  · exact plainText_of_all (by decide) (by decide)
  · split
    · exact plainText_of_all (by decide) (by decide)
    · split
      · exact plainText_of_all (by decide) (by decide)
      · split
        · exact plainText_of_all (by decide) (by decide)
        · exact plainText_of_all (by decide) (by decide)

/-- The keys of an account can be written and read. -/
theorem accountPairs_plain (plain : PlainAccount u) : ∀ kv ∈ accountPairs u,
    PlainPair ⟨ascii kv.1, kv.2⟩ ∧ kv.2.length ≤ valMax (ascii kv.1) := by
  have key : ∀ k ∈ ["uid", "gid", "role", "home", "shell", "salt", "password", "active"],
      PlainKey (ascii k) := by
    intro k mem
    simp only [List.mem_cons, List.not_mem_nil, or_false] at mem
    rcases mem with rfl | rfl | rfl | rfl | rfl | rfl | rfl | rfl
    all_goals
      exact ⟨by decide, ⟨_, _, rfl, by decide, by decide, by decide⟩, by decide⟩
  have pair : ∀ (k : String) {n : Nat} {val : Bytes}, PlainKey (ascii k) → PlainText n val →
      n < cfgValLen → n ≤ valMax (ascii k) →
      PlainPair ⟨ascii k, val⟩ ∧ val.length ≤ valMax (ascii k) :=
    fun k n val key text small most => ⟨⟨key, text.value small⟩, text.short.trans most⟩
  intro kv mem
  simp only [accountPairs, List.mem_cons, List.not_mem_nil, or_false] at mem
  rcases mem with rfl | rfl | rfl | rfl | rfl | rfl | rfl | rfl
  · exact pair "uid" (key _ (by simp)) (plainText_number plain.uid) (by decide) (by decide)
  · exact pair "gid" (key _ (by simp)) (plainText_number plain.gid) (by decide) (by decide)
  · exact pair "role" (key _ (by simp)) (plainText_role u.role) (by decide) (by decide)
  · exact pair "home" (key _ (by simp)) plain.home (by decide) (by decide)
  · exact pair "shell" (key _ (by simp)) plain.shell (by decide) (by decide)
  · exact pair "salt" (key _ (by simp)) plain.salt (by decide) (by decide)
  · exact pair "password" (key _ (by simp)) plain.passhash (by decide) (by decide)
  · exact pair "active" (key _ (by simp)) (plainText_of_all (n := 1) (by decide) (by decide))
      (by decide) (by decide)

/-- **What is saved can be read back.** -/
theorem savedConfig_plain (plain : ∀ u ∈ users, PlainAccount u) :
    ∀ sec ∈ savedConfig users, PlainSection sec ∧
      ∀ kv ∈ sec.entries, kv.val.length ≤ valMax kv.key := by
  have sections := savedConfig_sections
    (P := fun sec => PlainName sec.name ∧ ∀ kv ∈ sec.entries,
      PlainPair kv ∧ kv.val.length ≤ valMax kv.key)
    (Q := fun kv => PlainPair kv ∧ kv.val.length ≤ valMax kv.key)
    (fun sec kv all new => ⟨setKey_name kv.key kv.val sec ▸ all.1, setKey_pairs all.2 new⟩)
    ⟨⟨by decide, by decide⟩, fun _ mem => nomatch mem⟩
    ⟨⟨⟨by decide, ⟨_, _, rfl, by decide, by decide, by decide⟩, by decide⟩,
      (plainText_of_all (by decide) (by decide) : PlainText 1 _).value (by decide)⟩, by decide⟩
    (fun u inside _ => ⟨⟨Nat.lt_of_le_of_lt (validName_bytes (plain u inside).name).2.1 (by decide),
      fun b mem => ⟨(validName_plain (plain u inside).name b mem).1,
        (validName_plain (plain u inside).name b mem).2.2.2.1,
        (validName_plain (plain u inside).name b mem).2.2.2.2⟩⟩, fun _ mem => nomatch mem⟩)
    fun u inside _ => accountPairs_plain (plain u inside)
  intro sec mem
  obtain ⟨name, pairs⟩ := sections sec mem
  exact ⟨⟨name, fun kv inside => (pairs kv inside).1⟩, fun kv inside => (pairs kv inside).2⟩

/-- A role text that is known has no blank behind it. -/
theorem known_trimmed {val : Bytes} (known : (userParseRole val).1 = 0) :
    (userParseRole (trimmed val)).1 = 0 := by
  unfold userParseRole at known
  split at known
  · rename_i same
    rw [same]
    decide
  · split at known
    · rename_i same
      rw [same]
      decide
    · split at known
      · rename_i same
        rw [same]
        decide
      · split at known
        · rename_i same
          rcases same with same | same
          · rw [same]
            decide
          · rw [same]
            decide
        · exact absurd known (by decide)

/-- Roles that are known stay so in what is read back. -/
theorem knownRoles_read {acc : CfgFile} (known : KnownRoles cfg) (before : KnownRoles acc) :
    KnownRoles (cfg.foldl readSection acc) := by
  have pairs : ∀ (kvs : List Pair) (sec : Section),
      (∀ kv ∈ kvs, kv.key = ascii "role" → (userParseRole kv.val).1 = 0) →
      (∀ kv ∈ sec.entries, kv.key = ascii "role" → (userParseRole kv.val).1 = 0) →
      ∀ kv ∈ (addPairs kvs sec).entries, kv.key = ascii "role" → (userParseRole kv.val).1 = 0 := by
    intro kvs sec new old kv mem key
    rcases List.mem_append.mp (List.mem_of_mem_take mem) with before | added
    · exact old kv before key
    · obtain ⟨kv', inside, rfl⟩ := List.mem_map.mp added
      exact known_trimmed (new kv' inside key)
  induction cfg generalizing acc with
  | nil => exact before
  | cons sec cfg ih =>
    refine ih (fun sec mem => known sec (List.mem_cons_of_mem _ mem)) ?_
    have here := known sec List.mem_cons_self
    intro sec' mem
    unfold readSection at mem
    split at mem
    · rcases List.mem_append.mp mem with old | new
      · exact before sec' old
      · cases List.mem_singleton.mp new
        exact pairs _ _ here fun _ none_ => nomatch none_
    · rcases List.eq_nil_or_concat' acc with rfl | ⟨front, last, rfl⟩
      · cases mem
      · rw [List.modifyLast_concat] at mem
        rcases List.mem_append.mp mem with old | new
        · exact before sec' (List.mem_append_left _ old)
        · cases List.mem_singleton.mp new
          exact pairs _ _ here (before last (by simp))

/-- **The file read back** after the reboot. -/
theorem cfgLoad_saved (kept : Kept s) (roles : ∀ u ∈ s.users, u.active = true → HasRole u)
    (cfg : CfgFile) :
    ∃ cfg', cfgLoad cfg (some (cfgText s.usercfg)) = (0, cfg') ∧ KnownRoles cfg' := by
  obtain ⟨weight, few, first⟩ := savedConfig_fits kept.few
    fun u inside => (validName_bytes (kept.plain u inside).name).2.1
  have plain := savedConfig_plain kept.plain
  have size := length_sectionText fun sec mem => (plain sec mem).2
  have fits : ((savedConfig s.users).flatMap sectionText).length + 1 < cfgBuffer := by
    unfold cfgBuffer
    omega
  have named : ∀ sec ∈ (savedConfig s.users).head?, sec.name ≠ globalName := by
    intro sec head same
    cases all : savedConfig s.users with
    | nil =>
      rw [all] at head
      cases head
    | cons sec' rest =>
      rw [all] at head first
      cases head
      obtain ⟨tail, names⟩ := first
      rw [List.map_cons, List.singleton_append] at names
      have name := (List.cons.inj names).1
      rw [same] at name
      exact absurd name (by decide)
  have read := cfgParse_text (fun sec mem => (plain sec mem).1) named few fits
  have text := cfgText_eq fits
  have some_ : cfgText (savedConfig s.users) ≠ [] := by
    rw [text]
    intro none_
    cases all : savedConfig s.users with
    | nil =>
      rw [all] at first
      exact absurd (List.prefix_nil.mp first) (List.cons_ne_nil _ _)
    | cons sec rest =>
      rw [all, List.flatMap_cons, sectionText] at none_
      simp at none_
  have whole : (cfgText (savedConfig s.users)).take (cfgBuffer - 1) =
      cfgText (savedConfig s.users) := by
    refine List.take_of_length_le ?_
    rw [text]
    unfold cfgBuffer at fits ⊢
    omega
  refine ⟨_, ?_, knownRoles_read (knownRoles_saved roles) fun _ mem => absurd mem List.not_mem_nil⟩
  rw [kept.saved, cfgLoad, whole, if_neg some_, read]

/-- What of an account outlasts a reboot. -/
structure Record where
  name : Bytes
  uid : Nat
  gid : Nat
  role : Int
  home : Bytes
  salt : Bytes
  passhash : Bytes
deriving DecidableEq

def record (u : Account) : Record :=
  ⟨u.name, u.uid, u.gid, u.role, u.home, u.salt, u.passhash⟩

/-- The records of the active accounts. -/
def IsRecord (users : List Account) (r : Record) : Prop :=
  ∃ u ∈ users, u.active = true ∧ record u = r

/-- **The accounts are restored**: the records are the same, and so are the passwords accepted. -/
structure Restored (before after : List Account) : Prop where
  records : ∀ r, IsRecord before r ↔ IsRecord after r
  passwords : ∀ name password, userAuth before name password = userAuth after name password

/-- **`user_init` behind a reboot**, with the file that has been saved; in live mode it is
`config_init` that has read it. -/
def reboot (mounted : Bool) (junk : Nat → Int) (stored : Bool) (s : State) : State :=
  let file := some (cfgText s.usercfg)
  let config := { State.boot with usercfg := (cfgLoad [] file).2 }
  (userInit (if mounted then some file else none) junk stored config).2

/-- **Behind a reboot there are the three defaults**, whatever there was before. -/
theorem reboot_users (kept : Kept s) (roles : ∀ u ∈ s.users, u.active = true → HasRole u)
    (mounted : Bool) (junk : Nat → Int) (stored : Bool) :
    (reboot mounted junk stored s).users = defaultAccounts 1 := by
  obtain ⟨cfg, load, known⟩ := cfgLoad_saved kept roles []
  have config : KnownRoles (initConfig (if mounted then some (some (cfgText s.usercfg)) else none)
      (cfgLoad [] (some (cfgText s.usercfg))).2) := by
    cases mounted with
    | false =>
      show KnownRoles (cfgLoad [] (some (cfgText s.usercfg))).2
      rw [load]
      exact known
    | true =>
      obtain ⟨cfg', load', known'⟩ := cfgLoad_saved kept roles
        (cfgLoad [] (some (cfgText s.usercfg))).2
      show KnownRoles (cfgLoad _ (some (cfgText s.usercfg))).2
      rw [load']
      exact known'
  have init := userInit_known (s := { State.boot with
    usercfg := (cfgLoad [] (some (cfgText s.usercfg))).2 }) junk stored config
  rw [reboot, init]
  rfl

/-! ### Roles after the reboot -/

/-- An account from the file has the role that was in the variable, so it has one if that is. -/
theorem loaded_roles (cfg : CfgFile) : ∀ u ∈ loadAccounts cfg fun _ => roleAdmin, HasRole u := by
  have one : ∀ (name : Bytes) (u : Account), loadedAccount cfg roleAdmin name = some u →
      HasRole u := by
    intro name u loaded
    unfold loadedAccount at loaded
    dsimp only at loaded
    split at loaded
    · cases loaded
    · split at loaded
      · rename_i role _ _ _ _ _ _ _
        have admin : ∀ role : Bytes, ¬(userParseRole role).1 = 0 →
            (userParseRole role).2 = none := by
          intro role unknown
          unfold userParseRole at unknown ⊢
          split
          · rename_i same
            exact absurd (by rw [if_pos same]) unknown
          · rename_i notGuest
            rw [if_neg notGuest] at unknown
            split
            · rename_i same
              exact absurd (by rw [if_pos same]) unknown
            · rename_i notUser
              rw [if_neg notUser] at unknown
              split
              · rename_i same
                exact absurd (by rw [if_pos same]) unknown
              · rename_i notOperator
                rw [if_neg notOperator] at unknown
                split
                · rename_i same
                  exact absurd (by rw [if_pos same]) unknown
                · rfl
        split at loaded
        · cases loaded
        · rename_i fine
          cases loaded
          rw [not_or] at fine
          rw [HasRole]
          dsimp only
          rw [admin _ fine.1]
          decide
      · cases loaded
  have fold : ∀ (secs : List Section) (users : List Account), (∀ u ∈ users, HasRole u) →
      ∀ u ∈ secs.foldl (addLoaded cfg fun _ => roleAdmin) users, HasRole u := by
    intro secs
    induction secs with
    | nil => exact fun users roles => roles
    | cons sec secs ih =>
      intro users roles
      refine ih _ ?_
      intro u mem
      unfold addLoaded at mem
      split at mem
      · exact roles u mem
      · split at mem
        · exact roles u mem
        · rename_i loaded
          rcases List.mem_append.mp mem with old | new
          · exact roles u old
          · cases List.mem_singleton.mp new
            exact one _ _ loaded
  exact fold _ _ (by rintro _ ⟨⟩)

theorem addDefault_roles (name : Bytes) {role : Int} (uid : Nat) (roles : ∀ u ∈ s.users, HasRole u)
    (known : (userParseRole (userRoleName role)).1 = 0) :
    ∀ u ∈ (addDefault name role uid s).users, HasRole u := by
  unfold addDefault
  split
  · intro u mem
    rcases List.mem_append.mp mem with old | new
    · exact roles u old
    · cases List.mem_singleton.mp new
      exact known
  · exact roles

theorem enter_users (i : Nat) (s : State) : (enter i s).users = s.users := by
  unfold enter
  split
  · rfl
  · rfl

/-- **There is a role for every account** after the reboot, if there is one in the variable. -/
theorem reboot_roles (mounted stored : Bool) (s : State) :
    ∀ u ∈ (reboot mounted (fun _ => roleAdmin) stored s).users, HasRole u := by
  unfold reboot userInit
  dsimp only
  have known : ∀ role ∈ [roleGuest, roleUser, roleAdmin],
      (userParseRole (userRoleName role)).1 = 0 := by decide
  have roles := addDefault_roles guestName userUidGuest (addDefault_roles userName userUidFirst
      (addDefault_roles rootName userUidRoot
        (s := ⟨loadAccounts (initConfig (if mounted then some (some (cfgText s.usercfg)) else none)
          (cfgLoad [] (some (cfgText s.usercfg))).2) fun _ => roleAdmin, none, State.boot.saltCounter,
          initConfig (if mounted then some (some (cfgText s.usercfg)) else none)
            (cfgLoad [] (some (cfgText s.usercfg))).2, State.boot.sessionUid, State.boot.sessionGid⟩)
        (loaded_roles _) (known roleAdmin (by simp))) (known roleUser (by simp)))
    (known roleGuest (by simp))
  split
  · exact roles
  · rw [enter_users]
    exact roles

/-! ### What is restored -/

/-- **Accounts with the same records take the same passwords**, where no two of them share a
name. -/
theorem userAuth_congr {before after : List Account}
    (records : ∀ r, IsRecord before r ↔ IsRecord after r)
    (names : ∀ r r', IsRecord after r → IsRecord after r' → r.name = r'.name → r = r')
    (name : Bytes) (password : Option Bytes) :
    userAuth before name password = userAuth after name password := by
  have present : ∀ {users : List Account} {i : Nat}, indexOf users name = some i →
      ∃ u, users[i]? = some u ∧ u.active = true ∧ u.name = name := by
    intro users i found
    obtain ⟨u, at_, active, same⟩ := indexOf_some (s := { State.boot with users }) found
    exact ⟨u, at_, active, same⟩
  unfold userAuth
  cases first : indexOf before name with
  | none =>
    have absent : indexOf after name = none := by
      cases second : indexOf after name with
      | none => rfl
      | some j =>
        obtain ⟨v, at_, active, same⟩ := present second
        obtain ⟨u, inside, live, same'⟩ :=
          (records (record v)).mpr ⟨v, List.mem_of_getElem? at_, active, rfl⟩
        have named : u.name = name := (congrArg Record.name same').trans same
        exact absurd named (indexOf_none first inside live)
    rw [absent, Option.bind_none, Option.bind_none]
  | some i =>
    obtain ⟨u, at_, active, same⟩ := present first
    have kept := (records (record u)).mp ⟨u, List.mem_of_getElem? at_, active, rfl⟩
    cases second : indexOf after name with
    | none =>
      obtain ⟨v, inside, live, same'⟩ := kept
      have named : v.name = name := (congrArg Record.name same').trans same
      exact absurd named (indexOf_none second inside live)
    | some j =>
      obtain ⟨v, there, live, named⟩ := present second
      have equal := names (record u) (record v) kept ⟨v, List.mem_of_getElem? there, live, rfl⟩
        (same.trans named.symm)
      have salt : u.salt = v.salt := congrArg Record.salt equal
      have hash : u.passhash = v.passhash := congrArg Record.passhash equal
      rw [Option.bind_some, Option.bind_some, at_, there]
      cases password with
      | none => rfl
      | some password =>
        dsimp only
        rw [active, live, salt, hash]

/-- The accounts are the defaults of a first boot. -/
def Untouched (users : List Account) : Prop :=
  ∀ r, IsRecord users r ↔ r ∈ (defaultAccounts 1).map record

theorem isRecord_defaults (r : Record) :
    IsRecord (defaultAccounts 1) r ↔ r ∈ (defaultAccounts 1).map record := by
  have active : ∀ u ∈ defaultAccounts 1, u.active = true := by
    intro u mem
    simp only [defaultAccounts, List.mem_cons, List.not_mem_nil, or_false] at mem
    rcases mem with rfl | rfl | rfl
    · rfl
    · rfl
    · rfl
  rw [List.mem_map]
  constructor
  · rintro ⟨u, inside, _, same⟩
    exact ⟨u, inside, same⟩
  · rintro ⟨u, inside, same⟩
    exact ⟨u, inside, active u inside, same⟩

theorem defaults_apart : ∀ u ∈ defaultAccounts 1, ∀ v ∈ defaultAccounts 1,
    u.name = v.name → u = v := by
  have apart : copyText rootName (userNameMax + 1) ≠ copyText userName (userNameMax + 1) ∧
      copyText rootName (userNameMax + 1) ≠ copyText guestName (userNameMax + 1) ∧
      copyText userName (userNameMax + 1) ≠ copyText guestName (userNameMax + 1) := by decide
  intro u left v right same
  simp only [defaultAccounts, List.mem_cons, List.not_mem_nil, or_false] at left right
  rcases left with rfl | rfl | rfl
  · rcases right with rfl | rfl | rfl
    · rfl
    · exact absurd same apart.1
    · exact absurd same apart.2.1
  · rcases right with rfl | rfl | rfl
    · exact absurd same.symm apart.1
    · rfl
    · exact absurd same apart.2.2
  · rcases right with rfl | rfl | rfl
    · exact absurd same.symm apart.2.1
    · exact absurd same.symm apart.2.2
    · rfl

theorem defaults_roles : ∀ u ∈ defaultAccounts 1, HasRole u := by
  intro u mem
  simp only [defaultAccounts, List.mem_cons, List.not_mem_nil, or_false] at mem
  have known : ∀ (n : Bytes) (role : Int) (uid : Nat) (counter : UInt32),
      (userParseRole (userRoleName role)).1 = 0 →
      HasRole (initialiseAccount n role (ascii "atmkoala") uid counter) := fun _ _ _ _ known => known
  rcases mem with rfl | rfl | rfl
  · exact known _ _ _ _ (by decide)
  · exact known _ _ _ _ (by decide)
  · exact known _ _ _ _ (by decide)

/-- A call on the accounts. -/
def Change (s : State) (c : Call) (t : State) : Prop := t = (perform c s).2

/-- **Accounts outlast a reboot if and only if nobody has touched them.** The session starts with
what `config_init` has read of `first`, if anything. -/
theorem restored_iff (first : Option Bytes) (file : Option (Option Bytes)) (junk : Nat → Int)
    (stored : Bool) (calls : List Call) (s : State)
    (run : Run Change OnAccounts
      (userInit file junk stored (bootWith (cfgLoad [] first).2).1).2 calls s) :
    (∀ mounted junk' stored', Restored s.users (reboot mounted junk' stored' s).users) ↔
      Untouched s.users := by
  have empty : PlainValues [] := fun _ mem => nomatch mem
  have loads : ∀ (cfg : CfgFile) (bytes : Option Bytes), PlainValues cfg →
      PlainValues (cfgLoad cfg bytes).2 := by
    intro cfg bytes plain
    cases bytes with
    | none => exact plain
    | some bytes =>
      rw [cfgLoad]
      split
      · exact plain
      · exact plain_cfgParse _
  have start : PlainValues (initConfig file (bootWith (cfgLoad [] first).2).1.usercfg) := by
    cases file with
    | none => exact loads _ _ empty
    | some bytes => exact loads _ _ (loads _ _ empty)
  have kept : Kept s := run.invariant (kept_init junk stored start) fun {x a y} kept account change => by
    cases change
    exact kept_step kept account
  constructor
  · intro restored
    have roles : ∀ u ∈ s.users, u.active = true → HasRole u := by
      intro u inside active
      have after := (restored false (fun _ => roleAdmin) true).records (record u)
      obtain ⟨v, there, _, same⟩ := after.mp ⟨u, inside, active, rfl⟩
      have role : v.role = u.role := congrArg Record.role same
      have known := reboot_roles false true s v there
      rw [HasRole, role] at known
      exact known
    intro r
    rw [(restored false junk true).records r, reboot_users kept roles false junk true]
    exact isRecord_defaults r
  · intro untouched mounted junk' stored'
    have roles : ∀ u ∈ s.users, u.active = true → HasRole u := by
      intro u inside active
      obtain ⟨v, default, same⟩ :=
        List.mem_map.mp ((untouched (record u)).mp ⟨u, inside, active, rfl⟩)
      have role : v.role = u.role := congrArg Record.role same
      have known := defaults_roles v default
      rw [HasRole, role] at known
      exact known
    rw [reboot_users kept roles mounted junk' stored']
    have records : ∀ r, IsRecord s.users r ↔ IsRecord (defaultAccounts 1) r :=
      fun r => (untouched r).trans (isRecord_defaults r).symm
    refine ⟨records, userAuth_congr records ?_⟩
    rintro r r' ⟨u, inside, _, rfl⟩ ⟨v, there, _, rfl⟩ same
    rw [defaults_apart u inside v there same]

/-- The first boot without a configuration. -/
theorem restored_iff_first :
    Restored firstSession.users (reboot true (fun _ => 0) true firstSession).users := by
  refine (restored_iff none none (fun _ => 0) true [] firstSession ?_).mpr
    (isRecord_defaults ·) true (fun _ => 0) true
  rw [show (bootWith (cfgLoad [] none).2).1 = (bootWith []).1 from rfl, init_first]
  exact .nil _

/-- **A new account is lost**: `bob` is added, and behind the reboot nobody has this name. -/
theorem added_is_lost :
    ∃ s, Run Change OnAccounts (userInit none (fun _ => 0) true (bootWith []).1).2
        [.add (ascii "bob") roleUser (some (ascii "secret")) true] s ∧
      ¬Restored s.users (reboot true (fun _ => 0) true s).users := by
  have added : (userAdd (ascii "bob") roleUser (some (ascii "secret")) true firstSession).2.users =
      defaultAccounts 1 ++ [initialiseAccount (ascii "bob") roleUser (ascii "secret")
        (nextUid (defaultAccounts 1) roleUser) (1 + 1 + 1 + 1)] := by
    have fine : ¬(!validName (ascii "bob") ∨ (ascii "secret").length < 4 ∨ roleUser < roleGuest ∨
        roleAdmin < roleUser) := by decide
    have absent : indexOf (defaultAccounts 1) (ascii "bob") = none := by
      have apart : copyText rootName (userNameMax + 1) ≠ ascii "bob" ∧
          copyText userName (userNameMax + 1) ≠ ascii "bob" ∧
          copyText guestName (userNameMax + 1) ≠ ascii "bob" := by decide
      rw [defaultAccounts, indexOf_cons, if_neg fun both => apart.1 both.2, indexOf_cons,
        if_neg fun both => apart.2.1 both.2, indexOf_cons, if_neg fun both => apart.2.2 both.2]
      rfl
    have room : ¬(userMax ≤ firstSession.users.length ∨
        indexOf firstSession.users (ascii "bob") ≠ none) := by
      rintro (full | taken)
      · exact absurd full (show ¬userMax ≤ 3 by decide)
      · exact taken absent
    have ordinary : ¬roleUser = roleAdmin := by decide
    rw [userAdd]
    dsimp only
    rw [if_neg fine, if_neg room, if_neg ordinary]
    rfl
  have run : Run Change OnAccounts (userInit none (fun _ => 0) true (bootWith []).1).2
      [.add (ascii "bob") roleUser (some (ascii "secret")) true]
      (userAdd (ascii "bob") roleUser (some (ascii "secret")) true firstSession).2 := by
    rw [init_first]
    exact .single trivial rfl
  refine ⟨_, run, fun restored => ?_⟩
  have plain : PlainValues (initConfig none (bootWith []).1.usercfg) := by rintro _ ⟨⟩
  have first : Kept firstSession := by
    have kept := kept_init (fun _ => 0) true plain
    rw [init_first] at kept
    exact kept
  have kept : Kept (userAdd (ascii "bob") roleUser (some (ascii "secret")) true firstSession).2 :=
    kept_step (c := .add (ascii "bob") roleUser (some (ascii "secret")) true) first trivial
  have bob : ∀ uid counter, HasRole (initialiseAccount (ascii "bob") roleUser (ascii "secret") uid
      counter) := fun _ _ => show (userParseRole (userRoleName roleUser)).1 = 0 by decide
  have roles : ∀ u ∈ (userAdd (ascii "bob") roleUser (some (ascii "secret")) true
      firstSession).2.users, u.active = true → HasRole u := by
    intro u mem _
    rw [added] at mem
    rcases List.mem_append.mp mem with old | new
    · exact defaults_roles u old
    · cases List.mem_singleton.mp new
      exact bob _ _
  obtain ⟨u, default, _, same⟩ := (restored.records (record (initialiseAccount (ascii "bob") roleUser
    (ascii "secret") (nextUid (defaultAccounts 1) roleUser) (1 + 1 + 1 + 1)))).mp
    ⟨_, by rw [added]; exact List.mem_append_right _ (List.mem_singleton_self _), rfl, rfl⟩
  rw [reboot_users kept roles true (fun _ => 0) true] at default
  have apart : ∀ u ∈ defaultAccounts 1, u.name ≠ copyText (ascii "bob") (userNameMax + 1) := by
    have names : copyText rootName (userNameMax + 1) ≠ copyText (ascii "bob") (userNameMax + 1) ∧
        copyText userName (userNameMax + 1) ≠ copyText (ascii "bob") (userNameMax + 1) ∧
        copyText guestName (userNameMax + 1) ≠ copyText (ascii "bob") (userNameMax + 1) := by decide
    intro u mem
    simp only [defaultAccounts, List.mem_cons, List.not_mem_nil, or_false] at mem
    rcases mem with rfl | rfl | rfl
    · exact names.1
    · exact names.2.1
    · exact names.2.2
  exact apart u default (congrArg Record.name same)

end AtmKoala.Users
