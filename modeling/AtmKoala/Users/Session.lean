import Mathlib.Data.List.Nodup
import AtmKoala.Lib.Run
import AtmKoala.Config.Set
import AtmKoala.Users.Model

/-!
The console session.

* `loadAccounts_known`: from a configuration file whose role texts are all known no account is
  loaded.
* `session_agrees`: in a run that deletes no account while it is the current one, the
  credentials are those of the current account, which is the one last logged in; the numbers
  of the accounts are distinct, and only `root` has the number zero.
-/

namespace AtmKoala.Users

open Lib Package Config
open Option (bind_eq_some_iff)

variable {s : State} {users : List Account} {name : Bytes} {cfg : CfgFile} {u : Account}

/-! ### Loading -/

/-- `user_parse_role` knows every role text of the file. -/
def KnownRoles (cfg : CfgFile) : Prop :=
  ∀ sec ∈ cfg, ∀ kv ∈ sec.entries, kv.key = ascii "role" → (userParseRole kv.val).1 = 0

theorem mem_of_cfgGet {key val : Bytes} (found : cfgGet cfg name key = some val) :
    ∃ sec ∈ cfg, ∃ kv ∈ sec.entries, sec.name = name ∧ kv.key = key ∧ kv.val = val := by
  obtain ⟨sec, inside, here⟩ := List.exists_of_findSome?_eq_some found
  split at here
  · cases here
  · rename_i same
    obtain ⟨kv, first, value⟩ := Option.map_eq_some_iff.mp here
    have key := List.find?_some first
    exact ⟨sec, inside, kv, List.mem_of_find?_eq_some first, not_not.mp same,
      of_decide_eq_true key, value⟩

/-- An account with a role that is known is not loaded. -/
theorem loadedAccount_known (known : KnownRoles cfg) (junk : Int) (name : Bytes) :
    loadedAccount cfg junk name = none := by
  unfold loadedAccount
  split
  · rfl
  · dsimp only
    split
    · rename_i uid gid role salt hash _ _ text _ _
      obtain ⟨sec, inside, kv, pair, -, key, rfl⟩ := mem_of_cfgGet text
      rw [if_pos (.inl (known sec inside kv pair key))]
    · rfl

/-- **Nothing is loaded** from a file whose role texts are all known. -/
theorem loadAccounts_known (known : KnownRoles cfg) (junk : Nat → Int) :
    loadAccounts cfg junk = [] := by
  have step : ∀ secs : List Section, secs.foldl (addLoaded cfg junk) [] = [] := by
    intro secs
    induction secs with
    | nil => rfl
    | cons sec secs ih =>
      have same : addLoaded cfg junk [] sec = [] := by
        rw [addLoaded, if_neg (by decide), loadedAccount_known known]
      rw [List.foldl_cons, same, ih]
  exact step _

/-! ### Saving -/

/-- A property of sections that `setKey` keeps, and an empty section has, holds behind `put`. -/
theorem put_sections {P : Section → Prop} {kv : String × Bytes} (all : ∀ sec ∈ cfg, P sec)
    (empty : P ⟨name, []⟩) (kept : ∀ sec, P sec → P (setKey (ascii kv.1) kv.2 sec).2) :
    ∀ sec ∈ put name cfg kv, P sec :=
  cfgSet_sections all empty kept

/-- **What holds of every section saved.** -/
theorem savedConfig_sections {P : Section → Prop} {Q : Pair → Prop}
    (kept : ∀ sec kv, P sec → Q kv → P (setKey kv.key kv.val sec).2) (start : P ⟨metaName, []⟩)
    (format : Q ⟨ascii "format", ascii "1"⟩) (empty : ∀ u ∈ users, u.active → P ⟨u.name, []⟩)
    (pairs : ∀ u ∈ users, u.active → ∀ kv ∈ accountPairs u, Q ⟨ascii kv.1, kv.2⟩) :
    ∀ sec ∈ savedConfig users, P sec := by
  have account : ∀ (name : Bytes) (kvs : List (String × Bytes)) (cfg : CfgFile), P ⟨name, []⟩ →
      (∀ sec ∈ cfg, P sec) → (∀ kv ∈ kvs, Q ⟨ascii kv.1, kv.2⟩) →
      ∀ sec ∈ kvs.foldl (put name) cfg, P sec := by
    intro name kvs
    induction kvs with
    | nil => exact fun cfg _ all _ => all
    | cons kv kvs ih =>
      intro cfg empty all pairs
      exact ih _ empty (put_sections all empty fun sec holds =>
        kept sec ⟨ascii kv.1, kv.2⟩ holds (pairs kv List.mem_cons_self))
        fun kv mem => pairs kv (List.mem_cons_of_mem _ mem)
  have accounts : ∀ (l : List Account) (cfg : CfgFile), (∀ sec ∈ cfg, P sec) →
      (∀ u ∈ l, u.active → P ⟨u.name, []⟩) →
      (∀ u ∈ l, u.active → ∀ kv ∈ accountPairs u, Q ⟨ascii kv.1, kv.2⟩) →
      ∀ sec ∈ l.foldl saveAccount cfg, P sec := by
    intro l
    induction l with
    | nil => exact fun cfg all _ _ => all
    | cons u l ih =>
      intro cfg all empty pairs
      refine ih _ ?_ (fun u mem => empty u (List.mem_cons_of_mem _ mem))
        fun u mem => pairs u (List.mem_cons_of_mem _ mem)
      unfold saveAccount
      split
      · rename_i active
        exact account _ _ _ (empty u List.mem_cons_self active) all
          (pairs u List.mem_cons_self active)
      · exact all
  refine accounts _ _ (put_sections (fun _ mem => nomatch mem) start fun sec holds => ?_) empty pairs
  exact kept sec ⟨ascii "format", ascii "1"⟩ holds format

/-- The text of a role is one that `user_parse_role` knows. -/
def HasRole (u : Account) : Prop := (userParseRole (userRoleName u.role)).1 = 0

/-- **What is saved** of accounts that have roles has known role texts. -/
theorem knownRoles_saved (roles : ∀ u ∈ users, u.active → HasRole u) :
    KnownRoles (savedConfig users) := by
  refine savedConfig_sections (Q := fun kv => kv.key = ascii "role" → (userParseRole kv.val).1 = 0)
    (fun _ _ all new => setKey_pairs all new) (fun _ mem => nomatch mem)
    (fun key => absurd key (by decide)) (fun _ _ _ _ mem => nomatch mem) ?_
  intro u inside active kv mem key
  simp only [accountPairs, List.mem_cons, List.not_mem_nil, or_false] at mem
  rcases mem with rfl | rfl | rfl | rfl | rfl | rfl | rfl | rfl
  case inr.inr.inl => exact roles u inside active
  all_goals
    dsimp only at key
    exact absurd key (by decide)

/-! ### Numbers -/

/-- The first number that is free, among enough of them. -/
theorem freeUid_free {fuel : Nat} (uid : Nat) (small : uid + fuel < 2 ^ 32)
    (free : ∃ k < fuel, ∀ u ∈ users, u.active → u.uid ≠ uid + k) :
    uid ≤ freeUid users fuel uid ∧
      ∀ u ∈ users, u.active → u.uid ≠ freeUid users fuel uid := by
  induction fuel generalizing uid with
  | zero =>
    obtain ⟨k, none_, -⟩ := free
    cases none_
  | succ fuel ih =>
    rw [freeUid]
    split
    · rename_i taken
      obtain ⟨u, inside, used⟩ := List.any_eq_true.mp taken
      rw [Bool.and_eq_true, decide_eq_true_eq] at used
      obtain ⟨k, below, free⟩ := free
      have later : k ≠ 0 := by
        rintro rfl
        exact free u inside used.1 used.2
      have next : u32 (uid + 1) = uid + 1 := Nat.mod_eq_of_lt (by omega)
      obtain ⟨le, fresh⟩ := ih (uid + 1) (by omega)
        ⟨k - 1, by omega, fun u inside active same => free u inside active (by omega)⟩
      rw [next]
      exact ⟨by omega, fresh⟩
    · rename_i free
      refine ⟨Nat.le_refl _, fun u inside active same => free ?_⟩
      exact List.any_eq_true.mpr ⟨u, inside, by rw [active, same]; simp⟩

/-- Of more numbers than accounts one is free. -/
theorem exists_free (users : List Account) (uid : Nat) :
    ∃ k < users.length + 1, ∀ u ∈ users, u.active → u.uid ≠ uid + k := by
  by_contra none_
  have all : List.range' uid (users.length + 1) ⊆ users.map (·.uid) := by
    intro n mem
    obtain ⟨k, below, rfl⟩ := List.mem_range'.mp mem
    by_contra absent
    exact none_ ⟨k, below, fun u inside _ same =>
      absent (List.mem_map.mpr ⟨u, inside, by rw [same, Nat.one_mul]⟩)⟩
  have few := (List.subperm_of_subset List.nodup_range' all).length_le
  rw [List.length_range', List.length_map] at few
  omega

/-- **A new number** is not zero and not taken. -/
theorem nextUid_free (role : Int) (few : users.length ≤ userMax) :
    1000 ≤ nextUid users role ∧ ∀ u ∈ users, u.active → u.uid ≠ nextUid users role := by
  unfold nextUid
  unfold userMax at few
  split
  · obtain ⟨le, fresh⟩ := freeUid_free userUidGuest (by unfold userUidGuest; omega)
      (exists_free users _)
    exact ⟨Nat.le_trans (by decide) le, fresh⟩
  · obtain ⟨le, fresh⟩ := freeUid_free userUidFirst (by unfold userUidFirst; omega)
      (exists_free users _)
    exact ⟨le, fresh⟩

theorem freeUid_le (users : List Account) {fuel : Nat} (uid : Nat) (small : uid + fuel < 2 ^ 32) :
    freeUid users fuel uid ≤ uid + fuel := by
  induction fuel generalizing uid with
  | zero => exact Nat.le_refl _
  | succ fuel ih =>
    rw [freeUid]
    split
    · have next : u32 (uid + 1) = uid + 1 := Nat.mod_eq_of_lt (by omega)
      have rest := ih (uid + 1) (by omega)
      rw [next]
      omega
    · omega

theorem nextUid_lt (role : Int) (few : users.length ≤ userMax) :
    nextUid users role < 2 ^ 32 := by
  unfold userMax at few
  unfold nextUid
  split
  · have le := freeUid_le users userUidGuest
      (show userUidGuest + (users.length + 1) < 2 ^ 32 by unfold userUidGuest; omega)
    unfold userUidGuest at le ⊢
    omega
  · have le := freeUid_le users userUidFirst
      (show userUidFirst + (users.length + 1) < 2 ^ 32 by unfold userUidFirst; omega)
    unfold userUidFirst at le ⊢
    omega

/-! ### Calls -/

/-- The calls that change the accounts or the session. -/
inductive Call where
  | init (file : Option (Option Bytes)) (junk : Nat → Int) (stored : Bool)
  | login (name : Bytes) (password : Option Bytes)
  | logout
  | add (name : Bytes) (role : Int) (password : Option Bytes) (stored : Bool)
  | del (name : Bytes) (stored : Bool)
  | setRole (name : Bytes) (role : Int) (stored : Bool)
  | setPassword (name : Bytes) (password : Option Bytes) (stored : Bool)

def perform : Call → State → Int × State
  | .init file junk stored, s => userInit file junk stored s
  | .login name password, s => userLogin name password s
  | .logout, s => (0, userLogout s)
  | .add name role password stored, s => userAdd name role password stored s
  | .del name stored, s => userDel name stored s
  | .setRole name role stored, s => userSetRole name role stored s
  | .setPassword name password stored, s => userSetPassword name password stored s

/-- **The account last logged in**: `root` by `user_init` and `guest` by `user_logout`. There is
none once it has been deleted. -/
def lastIn (c : Call) (s : State) (last : Option Bytes) : Option Bytes :=
  match c with
  | .init .. => if (perform c s).1 = 0 then some rootName else none
  | .login name _ => if (perform c s).1 = 0 then some name else last
  | .logout => if indexOf s.users guestName = none then last else some guestName
  | .del name _ =>
    if last = some name ∧ name ≠ rootName ∧ indexOf s.users name ≠ none then none else last
  | _ => last

/-- A call, and what it makes of the account last logged in. -/
def Step (x : State × Option Bytes) (c : Call) (y : State × Option Bytes) : Prop :=
  y = ((perform c x.1).2, lastIn c x.1 x.2)

/-- **The calls that keep the session together**: `user_del` is not called for the current
account (but for `root`, which it refuses), and a file that `user_init` reads has no role text
that is unknown. -/
def Orderly (x : State × Option Bytes) : Call → Prop
  | .del name _ => name = rootName ∨ ∀ u, userCurrent x.1 = some u → u.name ≠ name
  | .init (some (some bytes)) _ _ => KnownRoles (cfgParse (bytes.take (cfgBuffer - 1)))
  | _ => True

/-- **A session that agrees with its account.** -/
structure Agrees (s : State) (last : Option Bytes) : Prop where
  credentials : ∀ u, userCurrent s = some u → s.sessionUid = u.uid ∧ s.sessionGid = u.gid
  current : ∀ name, last = some name →
    ∃ u, userCurrent s = some u ∧ u.active = true ∧ u.name = name
  uids : (s.users.filter (·.active)).Pairwise fun u v => u.uid ≠ v.uid
  root : ∀ u ∈ s.users, u.active = true → u.uid = 0 → u.name = rootName

/-- **What the calls keep**, without `user_del` for the current account. -/
structure Settled (s : State) (last : Option Bytes) : Prop where
  active : ∀ u ∈ s.users, u.active = true
  names : (s.users.map (·.name)).Nodup
  uids : (s.users.map (·.uid)).Nodup
  few : s.users.length ≤ userMax
  root : ∀ u ∈ s.users, u.uid = 0 → u.name = rootName
  roles : ∀ u ∈ s.users, HasRole u
  config : KnownRoles s.usercfg
  some_ : ∀ name, last = some name → ∃ u, userCurrent s = some u ∧ u.name = name ∧
    s.sessionUid = u.uid ∧ s.sessionGid = u.gid
  none_ : last = none → s.current = none

variable {last : Option Bytes} {i idx : Nat}

theorem Settled.agrees (settled : Settled s last) : Agrees s last := by
  refine ⟨fun u current => ?_, fun name logged => ?_, ?_,
    fun u inside _ zero => settled.root u inside zero⟩
  · cases last with
    | none =>
      rw [userCurrent, settled.none_ rfl] at current
      cases current
    | some name =>
      obtain ⟨u', current', -, credentials⟩ := settled.some_ name rfl
      rw [current] at current'
      cases current'
      exact credentials
  · obtain ⟨u, current, named, -⟩ := settled.some_ name logged
    obtain ⟨i, -, at_⟩ := bind_eq_some_iff.mp current
    exact ⟨u, current, settled.active u (List.mem_of_getElem? at_), named⟩
  · refine List.Pairwise.filter _ ?_
    exact List.pairwise_map.mp settled.uids

/-- Where an account is, for a name that is taken. -/
theorem indexOf_some (found : indexOf s.users name = some i) :
    ∃ u, s.users[i]? = some u ∧ u.active = true ∧ u.name = name := by
  obtain ⟨inside, here, -⟩ := List.findIdx?_eq_some_iff_getElem.mp found
  rw [Bool.and_eq_true, decide_eq_true_eq] at here
  exact ⟨_, List.getElem?_eq_getElem inside, here⟩

theorem indexOf_none (absent : indexOf users name = none) (inside : u ∈ users)
    (active : u.active = true) : u.name ≠ name := by
  intro same
  have none_ := List.findIdx?_eq_none_iff.mp absent u inside
  rw [active, same] at none_
  simp at none_

/-- To become the current account. -/
theorem Settled.enter (settled : Settled s last) (at_ : s.users[i]? = some u)
    (named : u.name = name) : Settled (enter i s) (some name) := by
  have same : Users.enter i s =
      { s with current := some i, sessionUid := u.uid, sessionGid := u.gid } := by
    rw [Users.enter, at_]
  rw [same]
  refine ⟨settled.active, settled.names, settled.uids, settled.few, settled.root, settled.roles,
    settled.config, fun n logged => ?_, fun none_ => nomatch none_⟩
  cases logged
  exact ⟨u, at_, named, rfl, rfl⟩

theorem settled_login {password : Option Bytes} (settled : Settled s last) :
    Settled (userLogin name password s).2
      (if (userLogin name password s).1 = 0 then some name else last) := by
  unfold userLogin
  split
  · exact settled
  · rename_i idx found
    split
    · exact settled
    · obtain ⟨u, at_, -, named⟩ := indexOf_some found
      exact settled.enter at_ named

theorem settled_logout (settled : Settled s last) :
    Settled (userLogout s)
      (if indexOf s.users guestName = none then last else some guestName) := by
  unfold userLogout
  split
  · rename_i absent
    rw [if_pos absent]
    exact settled
  · rename_i guest found
    obtain ⟨u, at_, -, named⟩ := indexOf_some found
    rw [if_neg (by rw [found]; exact Option.some_ne_none _)]
    exact settled.enter at_ named

/-- Saving changes the configuration only. -/
theorem Settled.save {stored : Bool} (settled : Settled s last) :
    Settled (userSave stored s).2 last :=
  ⟨settled.active, settled.names, settled.uids, settled.few, settled.root, settled.roles,
    knownRoles_saved fun u inside _ => settled.roles u inside, settled.some_, settled.none_⟩

theorem copyText_name (valid : validName name = true) : copyText name (userNameMax + 1) = name := by
  unfold validName at valid
  split at valid
  · cases valid
  · rw [Bool.and_eq_true, decide_eq_true_eq] at valid
    exact List.take_of_length_le valid.2

theorem hasRole_of_range {role : Int} (low : ¬role < roleGuest) (high : ¬roleAdmin < role)
    (same : u.role = role) : HasRole u := by
  subst same
  have small : (0 : Int) ≤ u.role ∧ (u.role : Int) ≤ 3 := ⟨Int.not_lt.mp low, Int.not_lt.mp high⟩
  have all : ∀ n < 4, (userParseRole (userRoleName (n : Nat))).1 = 0 := by decide
  have number : ((u.role : Int).toNat : Int) = u.role := Int.toNat_of_nonneg small.1
  rw [HasRole, ← number]
  exact all _ (by omega)

/-- **A new account** behind the others. -/
theorem Settled.append (settled : Settled s last) (counter : UInt32) (active : u.active = true)
    (room : s.users.length < userMax) (newName : ∀ v ∈ s.users, v.name ≠ u.name)
    (newUid : ∀ v ∈ s.users, v.uid ≠ u.uid) (root : u.uid = 0 → u.name = rootName)
    (role : HasRole u) :
    Settled { s with users := s.users ++ [u], saltCounter := counter } last := by
  have members : ∀ {P : Account → Prop}, (∀ v ∈ s.users, P v) → P u →
      ∀ v ∈ s.users ++ [u], P v := by
    intro P old new v mem
    rcases List.mem_append.mp mem with before | last
    · exact old v before
    · cases List.mem_singleton.mp last
      exact new
  have fresh : ∀ {β : Type} {f : Account → β}, (s.users.map f).Nodup →
      (∀ v ∈ s.users, f v ≠ f u) → ((s.users ++ [u]).map f).Nodup := by
    intro β f distinct new
    rw [List.map_append, List.nodup_append]
    refine ⟨distinct, List.nodup_singleton _, fun a mem b last same => ?_⟩
    obtain ⟨v, inside, rfl⟩ := List.mem_map.mp mem
    cases List.mem_singleton.mp last
    exact new v inside same
  refine ⟨members settled.active active, fresh settled.names newName, fresh settled.uids newUid,
    ?_, members settled.root root, members settled.roles role, settled.config,
    fun name logged => ?_, settled.none_⟩
  · rw [List.length_append]
    exact room
  · obtain ⟨v, current, rest⟩ := settled.some_ name logged
    obtain ⟨i, there, at_⟩ := bind_eq_some_iff.mp current
    refine ⟨v, bind_eq_some_iff.mpr ⟨i, there, ?_⟩, rest⟩
    rw [List.getElem?_append_left (List.getElem?_eq_some_iff.mp at_).1]
    exact at_

theorem settled_add {role : Int} {password : Option Bytes} {stored : Bool}
    (settled : Settled s last) : Settled (userAdd name role password stored s).2 last := by
  unfold userAdd
  split
  · exact settled
  · split
    · exact settled
    · rename_i fine
      split
      · exact settled
      · rename_i new
        split
        · exact settled
        · simp only [not_or, Bool.not_eq_true', Bool.not_eq_false] at fine new
          obtain ⟨valid, -, low, high⟩ := fine
          obtain ⟨large, fresh⟩ := nextUid_free role settled.few
          have named := copyText_name valid
          refine (settled.append _ rfl (by omega) (fun v inside => ?_) (fun v inside => ?_)
            (fun zero => ?_) (hasRole_of_range low high rfl)).save
          · show v.name ≠ copyText name (userNameMax + 1)
            rw [named]
            exact indexOf_none (not_not.mp new.2) inside (settled.active v inside)
          · exact fresh v inside (settled.active v inside)
          · exfalso
            have zero : nextUid s.users role = 0 := zero
            omega

theorem map_modify_same {β : Type} {g : Account → β} {f : Account → Account}
    (same : ∀ u, g (f u) = g u) (users : List Account) (idx : Nat) :
    (users.modify idx f).map g = users.map g := by
  refine List.ext_getElem? fun i => ?_
  rw [List.getElem?_map, List.getElem?_map, List.getElem?_modify]
  cases users[i]? with
  | none => rfl
  | some u =>
    show some (g (if idx = i then f u else u)) = some (g u)
    split
    · rw [same]
    · rfl

/-- **An account changed** in what the session does not depend on. -/
theorem Settled.modify (settled : Settled s last) (idx : Nat) (counter : UInt32)
    (f : Account → Account)
    (same : ∀ u, (f u).active = u.active ∧ (f u).name = u.name ∧ (f u).uid = u.uid ∧
      (f u).gid = u.gid) (role : ∀ u, HasRole u → HasRole (f u)) :
    Settled { s with users := s.users.modify idx f, saltCounter := counter } last := by
  have members : ∀ {P : Account → Prop}, (∀ u ∈ s.users, P u) → (∀ u, P u → P (f u)) →
      ∀ u ∈ s.users.modify idx f, P u := by
    intro P all kept u mem
    obtain ⟨i, at_⟩ := List.mem_iff_getElem?.mp mem
    rw [List.getElem?_modify] at at_
    obtain ⟨v, there, rfl⟩ := Option.map_eq_some_iff.mp at_
    have inside := List.mem_of_getElem? there
    split
    · exact kept v (all v inside)
    · exact all v inside
  refine ⟨members settled.active fun u active => (same u).1.trans active, ?_, ?_, ?_,
    members settled.root fun u root zero => ?_, members settled.roles role, settled.config,
    fun name logged => ?_, settled.none_⟩
  · show ((s.users.modify idx f).map (·.name)).Nodup
    rw [map_modify_same fun u => (same u).2.1]
    exact settled.names
  · show ((s.users.modify idx f).map (·.uid)).Nodup
    rw [map_modify_same fun u => (same u).2.2.1]
    exact settled.uids
  · show (s.users.modify idx f).length ≤ userMax
    rw [List.length_modify]
    exact settled.few
  · rw [(same u).2.1]
    exact root ((same u).2.2.1.symm.trans zero)
  · obtain ⟨u, current, named, uid, gid⟩ := settled.some_ name logged
    obtain ⟨i, there, at_⟩ := bind_eq_some_iff.mp current
    have now : (s.users.modify idx f)[i]? = some (if idx = i then f u else u) := by
      rw [List.getElem?_modify, at_]
      rfl
    refine ⟨_, bind_eq_some_iff.mpr ⟨i, there, now⟩, ?_⟩
    split
    · exact ⟨(same u).2.1.trans named, uid.trans (same u).2.2.1.symm,
        gid.trans (same u).2.2.2.symm⟩
    · exact ⟨named, uid, gid⟩

theorem settled_setRole {role : Int} {stored : Bool} (settled : Settled s last) :
    Settled (userSetRole name role stored s).2 last := by
  unfold userSetRole
  split
  · exact settled
  · split
    · exact settled
    · rename_i fine
      simp only [not_or] at fine
      have low : ¬roleAdmin < role := by
        have high := fine.2.2
        unfold roleOperator at high
        unfold roleAdmin
        omega
      exact (settled.modify _ s.saltCounter ({ · with role }) (fun _ => ⟨rfl, rfl, rfl, rfl⟩)
        fun _ _ => hasRole_of_range fine.2.1 low rfl).save

theorem settled_setPassword {password : Option Bytes} {stored : Bool} (settled : Settled s last) :
    Settled (userSetPassword name password stored s).2 last := by
  unfold userSetPassword
  split
  · rename_i idx password _
    split
    · exact settled
    · exact (settled.modify idx (s.saltCounter + 1) (fun u => { u with
        salt := makeSalt name u.uid s.saltCounter
        passhash := passwordHash password (makeSalt name u.uid s.saltCounter) })
        (fun _ => ⟨rfl, rfl, rfl, rfl⟩) fun _ role => role).save
  · exact settled

/-- **An account deleted** that is not the current one. -/
theorem settled_del {stored : Bool} (settled : Settled s last)
    (other : name = rootName ∨ ∀ u, userCurrent s = some u → u.name ≠ name) :
    Settled (userDel name stored s).2
      (if last = some name ∧ name ≠ rootName ∧ indexOf s.users name ≠ none then none else last) := by
  have kept : name ≠ rootName → (if last = some name ∧ name ≠ rootName ∧
      indexOf s.users name ≠ none then none else last) = last := by
    intro real
    refine if_neg fun all => ?_
    obtain ⟨u, current, named, -⟩ := settled.some_ name all.1
    exact (other.resolve_left real) u current named
  unfold userDel
  split
  · rename_i absent
    rw [if_neg fun all => all.2.2 absent]
    exact settled
  · rename_i idx found
    split
    · rename_i root
      rw [if_neg fun all => all.2.1 root]
      exact settled
    · rename_i real
      rw [kept real]
      have part : (s.users.eraseIdx idx).Sublist s.users := List.eraseIdx_sublist ..
      obtain ⟨v, gone, -, goneName⟩ := indexOf_some found
      have notCurrent : ∀ i u, s.current = some i → s.users[i]? = some u → i ≠ idx := by
        rintro i u current at_ rfl
        rw [gone] at at_
        cases at_
        exact other.resolve_left real v (bind_eq_some_iff.mpr ⟨i, current, gone⟩) goneName
      have erased : Settled { s with
          users := s.users.eraseIdx idx
          current := if s.current = some idx then indexOf (s.users.eraseIdx idx) rootName
            else s.current.map fun i => if idx < i then i - 1 else i } last := by
        refine ⟨fun u mem => settled.active u (part.mem mem), settled.names.sublist (part.map _),
          settled.uids.sublist (part.map _), part.length_le.trans settled.few,
          fun u mem => settled.root u (part.mem mem), fun u mem => settled.roles u (part.mem mem),
          settled.config, fun n logged => ?_, fun none_ => ?_⟩
        · obtain ⟨u, current, rest⟩ := settled.some_ n logged
          obtain ⟨i, there, at_⟩ := bind_eq_some_iff.mp current
          have apart := notCurrent i u there at_
          have moved : (s.users.eraseIdx idx)[if idx < i then i - 1 else i]? = some u := by
            rw [List.getElem?_eraseIdx]
            by_cases behind : idx < i
            · rw [if_pos behind, if_neg (by omega), Nat.sub_add_cancel (by omega), at_]
            · rw [if_neg behind, if_pos (by omega), at_]
          refine ⟨u, bind_eq_some_iff.mpr ⟨_, ?_, moved⟩, rest⟩
          show (if s.current = some idx then _ else _) = _
          rw [there, if_neg (by simpa using apart)]
          rfl
        · show (if s.current = some idx then _ else _) = _
          rw [settled.none_ none_, if_neg (by simp)]
          rfl
      exact erased.save

/-! ### Boot -/

/-- The accounts that `user_init` makes, from a value of the salt counter on. -/
def defaultAccounts (counter : UInt32) : List Account :=
  [initialiseAccount rootName roleAdmin (ascii "atmkoala") userUidRoot counter,
    initialiseAccount userName roleUser (ascii "atmkoala") userUidFirst (counter + 1),
    initialiseAccount guestName roleGuest (ascii "atmkoala") userUidGuest (counter + 1 + 1)]

theorem addDefault_absent {role : Int} {uid : Nat} (absent : indexOf s.users name = none)
    (room : s.users.length < userMax) :
    addDefault name role uid s = { s with
      users := s.users ++ [initialiseAccount name role (ascii "atmkoala") uid s.saltCounter]
      saltCounter := s.saltCounter + 1 } := if_pos ⟨absent, room⟩

theorem indexOf_cons (u : Account) (users : List Account) (name : Bytes) :
    indexOf (u :: users) name =
      if u.active = true ∧ u.name = name then some 0 else (indexOf users name).map (· + 1) := by
  rw [indexOf, List.findIdx?_cons]
  by_cases here : u.active = true ∧ u.name = name
  · rw [if_pos here, if_pos (by simp [here])]
  · rw [if_neg here, if_neg (by simpa using here)]
    rfl

/-- **Only the three defaults** come out of a file whose role texts are all known. -/
theorem userInit_known {file : Option (Option Bytes)} (junk : Nat → Int) (stored : Bool)
    (known : KnownRoles (initConfig file s.usercfg)) :
    userInit file junk stored s =
      (0, { s with
        users := defaultAccounts s.saltCounter
        current := some 0
        saltCounter := s.saltCounter + 1 + 1 + 1
        usercfg := savedConfig (defaultAccounts s.saltCounter)
        sessionUid := 0
        sessionGid := 0 }) := by
  have named : ∀ (n : Bytes) role uid counter, copyText n (userNameMax + 1) = n →
      (initialiseAccount n role (ascii "atmkoala") uid counter).active = true ∧
        (initialiseAccount n role (ascii "atmkoala") uid counter).name = n :=
    fun n role uid counter short => ⟨rfl, short⟩
  have root := fun counter =>
    named rootName roleAdmin userUidRoot counter (by decide)
  have user := fun counter =>
    named userName roleUser userUidFirst counter (by decide)
  have apart : rootName ≠ userName ∧ rootName ≠ guestName ∧ userName ≠ guestName := by decide
  have absent : ∀ name, indexOf [] name = none := fun _ => rfl
  have second : ∀ counter, indexOf
      [initialiseAccount rootName roleAdmin (ascii "atmkoala") userUidRoot counter] userName =
        none := by
    intro counter
    rw [indexOf_cons, if_neg (by rw [(root counter).2]; exact fun both => apart.1 both.2), absent]
    rfl
  have third : ∀ counter counter', indexOf
      [initialiseAccount rootName roleAdmin (ascii "atmkoala") userUidRoot counter,
        initialiseAccount userName roleUser (ascii "atmkoala") userUidFirst counter'] guestName =
        none := by
    intro counter counter'
    rw [indexOf_cons, if_neg (by rw [(root counter).2]; exact fun both => apart.2.1 both.2),
      indexOf_cons, if_neg (by rw [(user counter').2]; exact fun both => apart.2.2 both.2), absent]
    rfl
  have found : ∀ counter, indexOf (defaultAccounts counter) rootName = some 0 := by
    intro counter
    rw [defaultAccounts, indexOf_cons, if_pos (root counter)]
  have stepRoot : ∀ c cfg uid gid, addDefault rootName roleAdmin userUidRoot
      ⟨[], none, c, cfg, uid, gid⟩ =
      ⟨[initialiseAccount rootName roleAdmin (ascii "atmkoala") userUidRoot c], none, c + 1, cfg,
        uid, gid⟩ :=
    fun c cfg uid gid => addDefault_absent (absent _) (show 0 < userMax by decide)
  have stepUser : ∀ c cfg uid gid, addDefault userName roleUser userUidFirst
      ⟨[initialiseAccount rootName roleAdmin (ascii "atmkoala") userUidRoot c], none, c + 1, cfg,
        uid, gid⟩ =
      ⟨[initialiseAccount rootName roleAdmin (ascii "atmkoala") userUidRoot c,
        initialiseAccount userName roleUser (ascii "atmkoala") userUidFirst (c + 1)], none,
        c + 1 + 1, cfg, uid, gid⟩ :=
    fun c cfg uid gid => addDefault_absent (second _) (show 1 < userMax by decide)
  have stepGuest : ∀ c cfg uid gid, addDefault guestName roleGuest userUidGuest
      ⟨[initialiseAccount rootName roleAdmin (ascii "atmkoala") userUidRoot c,
        initialiseAccount userName roleUser (ascii "atmkoala") userUidFirst (c + 1)], none,
        c + 1 + 1, cfg, uid, gid⟩ =
      ⟨defaultAccounts c, none, c + 1 + 1 + 1, cfg, uid, gid⟩ :=
    fun c cfg uid gid => addDefault_absent (third _ _) (show 2 < userMax by decide)
  have entered : ∀ (t : State), t.users = defaultAccounts s.saltCounter →
      enter 0 t = { t with current := some 0, sessionUid := 0, sessionGid := 0 } := by
    intro t users
    rw [enter, users, defaultAccounts, List.getElem?_cons_zero]
    rfl
  rw [userInit, loadAccounts_known known junk, stepRoot, stepUser, stepGuest, userSave]
  dsimp only
  rw [found]
  dsimp only
  rw [entered _ rfl]

theorem settled_init {file : Option (Option Bytes)} {junk : Nat → Int} {stored : Bool}
    (known : KnownRoles (initConfig file s.usercfg)) :
    Settled (userInit file junk stored s).2
      (if (userInit file junk stored s).1 = 0 then some rootName else none) := by
  rw [userInit_known junk stored known, if_pos rfl]
  have uids : (defaultAccounts s.saltCounter).map (·.uid) = [0, 1000, 2000] := rfl
  have names : (defaultAccounts s.saltCounter).map (·.name) = [rootName, userName, guestName] := by
    have short : copyText rootName (userNameMax + 1) = rootName ∧
        copyText userName (userNameMax + 1) = userName ∧
        copyText guestName (userNameMax + 1) = guestName := by decide
    show [copyText rootName (userNameMax + 1), copyText userName (userNameMax + 1),
      copyText guestName (userNameMax + 1)] = _
    rw [short.1, short.2.1, short.2.2]
  have roles : ∀ (n : Bytes) (role : Int) (uid : Nat) (counter : UInt32),
      (userParseRole (userRoleName role)).1 = 0 →
      HasRole (initialiseAccount n role (ascii "atmkoala") uid counter) := fun _ _ _ _ known => known
  have members : ∀ u ∈ defaultAccounts s.saltCounter, u.active = true ∧ HasRole u ∧
      (u.uid = 0 → u.name = rootName) := by
    intro u mem
    simp only [defaultAccounts, List.mem_cons, List.not_mem_nil, or_false] at mem
    rcases mem with rfl | rfl | rfl
    · refine ⟨rfl, roles _ _ _ _ (by decide), fun _ => ?_⟩
      show copyText rootName (userNameMax + 1) = rootName
      decide
    · exact ⟨rfl, roles _ _ _ _ (by decide), fun zero => absurd zero (show ¬(1000 = 0) by decide)⟩
    · exact ⟨rfl, roles _ _ _ _ (by decide), fun zero => absurd zero (show ¬(2000 = 0) by decide)⟩
  have first : ∃ u, (defaultAccounts s.saltCounter)[0]? = some u ∧ u.name = rootName ∧ 0 = u.uid ∧
      0 = u.gid := by
    refine ⟨_, rfl, ?_, rfl, rfl⟩
    show copyText rootName (userNameMax + 1) = rootName
    decide
  have three : (defaultAccounts s.saltCounter).length = 3 := rfl
  generalize defaultAccounts s.saltCounter = users at *
  refine ⟨fun u mem => (members u mem).1, ?_, ?_, ?_, fun u mem => (members u mem).2.2,
    fun u mem => (members u mem).2.1, knownRoles_saved fun u mem _ => (members u mem).2.1,
    fun name logged => ?_, nofun⟩
  · show (users.map (·.name)).Nodup
    rw [names]
    decide
  · show (users.map (·.uid)).Nodup
    rw [uids]
    decide
  · show users.length ≤ userMax
    rw [three]
    decide
  · cases logged
    exact first

/-- **One call.** -/
theorem settled_step {x y : State × Option Bytes} {c : Call} (settled : Settled x.1 x.2)
    (orderly : Orderly x c) (step : Step x c y) : Settled y.1 y.2 := by
  cases step
  cases c with
  | init file junk stored =>
    refine settled_init ?_
    cases file with
    | none => exact settled.config
    | some bytes =>
      cases bytes with
      | none => exact settled.config
      | some bytes =>
        rw [initConfig, cfgLoad]
        split
        · exact settled.config
        · exact orderly
  | login name password => exact settled_login settled
  | logout => exact settled_logout settled
  | add name role password stored => exact settled_add settled
  | del name stored => exact settled_del settled orderly
  | setRole name role stored => exact settled_setRole settled
  | setPassword name password stored => exact settled_setPassword settled

/-- The session before the first call, with what `config_init` has read. -/
def bootWith (cfg : CfgFile) : State × Option Bytes := ({ State.boot with usercfg := cfg }, none)

theorem settled_boot (known : KnownRoles cfg) : Settled (bootWith cfg).1 (bootWith cfg).2 where
  active := fun _ mem => nomatch mem
  names := List.nodup_nil
  uids := List.nodup_nil
  few := Nat.zero_le _
  root := fun _ mem => nomatch mem
  roles := fun _ mem => nomatch mem
  config := known
  some_ := nofun
  none_ := fun _ => rfl

/-- **The session agrees with its account** in every state that orderly calls reach. -/
theorem session_agrees (cfg : CfgFile) (known : KnownRoles cfg) (calls : List Call)
    (y : State × Option Bytes) (run : Run Step Orderly (bootWith cfg) calls y) :
    Agrees y.1 y.2 :=
  (run.invariant (P := fun x => Settled x.1 x.2) (settled_boot known)
    fun settled orderly step => settled_step settled orderly step).agrees

/-- The session behind `user_init`, in live mode and without a configuration. -/
def firstSession : State :=
  { users := defaultAccounts 1, current := some 0, saltCounter := 1 + 1 + 1 + 1
    usercfg := savedConfig (defaultAccounts 1), sessionUid := 0, sessionGid := 0 }

theorem init_first (junk : Nat → Int) (stored : Bool) :
    userInit none junk stored (bootWith []).1 = (0, firstSession) :=
  userInit_known (s := (bootWith []).1) junk stored (fun _ mem => nomatch mem)

/-- Where the defaults are. -/
theorem indexOf_defaults (counter : UInt32) :
    indexOf (defaultAccounts counter) rootName = some 0 ∧
      indexOf (defaultAccounts counter) userName = some 1 := by
  have apart : copyText rootName (userNameMax + 1) ≠ userName := by decide
  have root : copyText rootName (userNameMax + 1) = rootName := by decide
  have user : copyText userName (userNameMax + 1) = userName := by decide
  constructor
  · rw [defaultAccounts, indexOf_cons, if_pos ⟨rfl, root⟩]
  · rw [defaultAccounts, indexOf_cons, if_neg fun both => apart both.2, indexOf_cons,
      if_pos ⟨rfl, user⟩]
    rfl

/-- `root` is the current account behind `user_init`, and another can be deleted. -/
theorem session_agrees_first :
    Agrees (userDel userName true firstSession).2 (some rootName) := by
  have root : copyText rootName (userNameMax + 1) ≠ userName := by decide
  have run : Run Step Orderly (bootWith []) [.init none (fun _ => 0) true]
      (firstSession, some rootName) := by
    refine (Run.nil (bootWith [])).snoc trivial ?_
    rw [Step, lastIn, perform, init_first]
    rfl
  refine session_agrees [] (fun _ mem => nomatch mem) [.init none (fun _ => 0) true,
    .del userName true] ((userDel userName true firstSession).2, some rootName)
    (run.snoc (.inr fun u current => ?_) ?_)
  · cases current
    exact root
  · have other : ¬some rootName = some userName := by decide
    rw [Step, lastIn, if_neg fun all => other all.1]
    rfl

theorem secureEqual_refl (a : Bytes) : secureEqual a a = true := by
  have same : ∀ l : List Nat,
      l.foldl (fun diff i => diff ||| (a.getD i 0 ^^^ a.getD i 0)) 0 = 0 := by
    intro l
    induction l with
    | nil => rfl
    | cons i l ih =>
      rw [List.foldl_cons, UInt8.xor_self, UInt8.or_zero]
      exact ih
  rw [secureEqual, same]
  rfl

theorem initialiseAccount_hash (name : Bytes) (role : Int) (password : Bytes) (uid : Nat)
    (counter : UInt32) :
    (initialiseAccount name role password uid counter).passhash =
      passwordHash password (initialiseAccount name role password uid counter).salt := by
  rw [initialiseAccount]

/-- The password that an account has been made with. -/
theorem userAuth_ok {password : Bytes}
    (found : (indexOf users name).bind (users[·]?) = some u) (active : u.active = true)
    (hash : u.passhash = passwordHash password u.salt) :
    userAuth users name (some password) = true := by
  unfold userAuth
  rw [found]
  dsimp only
  rw [active, hash, secureEqual_refl]
  rfl

/-- The session of `user` behind that. -/
def secondSession : State :=
  { firstSession with current := some 1, sessionUid := 1000, sessionGid := 1000 }

theorem login_user : userLogin userName (some (ascii "atmkoala")) firstSession =
    (0, secondSession) := by
  have place : indexOf firstSession.users userName = some 1 := (indexOf_defaults 1).2
  have account : firstSession.users[1]? =
      some (initialiseAccount userName roleUser (ascii "atmkoala") userUidFirst (1 + 1)) := rfl
  have auth : userAuth firstSession.users userName (some (ascii "atmkoala")) = true := by
    have found : (indexOf firstSession.users userName).bind (firstSession.users[·]?) =
        some (initialiseAccount userName roleUser (ascii "atmkoala") userUidFirst (1 + 1)) := by
      rw [place]
      exact account
    exact userAuth_ok found rfl (initialiseAccount_hash _ _ _ _ _)
  have entered : enter 1 firstSession = secondSession := by
    rw [enter, account]
    rfl
  rw [userLogin, place]
  dsimp only
  rw [auth, entered]
  rfl

theorem del_user : (userDel userName true secondSession).2.current = some 0 ∧
    (userDel userName true secondSession).2.sessionUid = 1000 ∧
    (userDel userName true secondSession).2.users =
      [initialiseAccount rootName roleAdmin (ascii "atmkoala") userUidRoot 1,
        initialiseAccount guestName roleGuest (ascii "atmkoala") userUidGuest (1 + 1 + 1)] := by
  have place : indexOf secondSession.users userName = some 1 := (indexOf_defaults 1).2
  have real : ¬userName = rootName := by decide
  have current : secondSession.current = some 1 := rfl
  have erased : secondSession.users.eraseIdx 1 =
      [initialiseAccount rootName roleAdmin (ascii "atmkoala") userUidRoot 1,
        initialiseAccount guestName roleGuest (ascii "atmkoala") userUidGuest (1 + 1 + 1)] := rfl
  have root : copyText rootName (userNameMax + 1) = rootName := by decide
  rw [userDel, place]
  dsimp only
  rw [if_neg real, current, if_pos rfl, erased, indexOf_cons, if_pos ⟨rfl, root⟩]
  exact ⟨rfl, rfl, rfl⟩

/-- **The credentials of a deleted account stay** when it is the current one: `user` logs in and
is deleted, and the session of `root` goes on with the number 1000. -/
theorem deleted_keeps_credentials :
    ∃ y, Run Step Anything (bootWith []) [.init none (fun _ => 0) true,
        .login userName (some (ascii "atmkoala")), .del userName true] y ∧
      (userCurrent y.1).map (·.uid) = some 0 ∧ y.1.sessionUid = 1000 ∧ ¬Agrees y.1 y.2 := by
  have first : Run Step Anything (bootWith []) [.init none (fun _ => 0) true]
      (firstSession, some rootName) := by
    refine (Run.nil (bootWith [])).snoc trivial ?_
    rw [Step, lastIn, perform, init_first]
    rfl
  have second : Run Step Anything (bootWith []) [.init none (fun _ => 0) true,
      .login userName (some (ascii "atmkoala"))] (secondSession, some userName) := by
    refine first.snoc trivial ?_
    rw [Step, lastIn, perform, login_user]
    rfl
  obtain ⟨current, credentials, users⟩ := del_user
  have account : userCurrent (userDel userName true secondSession).2 =
      some (initialiseAccount rootName roleAdmin (ascii "atmkoala") userUidRoot 1) := by
    rw [userCurrent, current, users]
    rfl
  refine ⟨_, second.snoc trivial rfl, ?_, credentials, fun agrees => ?_⟩
  · show (userCurrent (userDel userName true secondSession).2).map (·.uid) = some 0
    rw [account]
    rfl
  · have same := (agrees.credentials _ account).1
    rw [show (perform (.del userName true) secondSession).2.sessionUid = 1000 from credentials] at same
    exact absurd same (show ¬(1000 = 0) by decide)

end AtmKoala.Users
