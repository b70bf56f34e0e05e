import AtmKoala.Config.Model

/-!
Accounts and the console session (`users.c`), and the credentials of `vfs.c`.

`g_users[0 .. g_user_count)` is a list, and an index of `-1` is `none`. What `user_add` does to
the home directory, and the directories that `user_save` makes, are left out: nothing of it is
read again. A call that saves the accounts takes whether the file could be written.

`add_loaded` turns an account away when `user_parse_role` *knows* its role (it returns zero),
and takes one whose role is unknown with the value of a variable that has not been written;
`junk` is that value, for each place in the table.
-/

namespace AtmKoala.Users

open Lib Package Config

def userMax : Nat := 15
def userNameMax : Nat := 31
def userHomeMax : Nat := 95
def userShellMax : Nat := 31

def userUidRoot : Nat := 0
def userUidFirst : Nat := 1000
def userUidGuest : Nat := 2000

/-! A `user_role_t` is a number, which need not be one of the roles. -/

def roleGuest : Int := 0
def roleUser : Int := 1
def roleOperator : Int := 2
def roleAdmin : Int := 3

/-- `user_account_t`. -/
structure Account where
  name : Bytes
  uid : Nat
  gid : Nat
  role : Int
  home : Bytes
  shell : Bytes
  salt : Bytes
  passhash : Bytes
  active : Bool
deriving DecidableEq

/-! ### Passwords -/

/-- `sha256_k`. -/
def sha256K : List UInt32 :=
  [0x428a2f98, 0x71374491, 0xb5c0fbcf, 0xe9b5dba5, 0x3956c25b, 0x59f111f1, 0x923f82a4, 0xab1c5ed5,
    0xd807aa98, 0x12835b01, 0x243185be, 0x550c7dc3, 0x72be5d74, 0x80deb1fe, 0x9bdc06a7, 0xc19bf174,
    0xe49b69c1, 0xefbe4786, 0x0fc19dc6, 0x240ca1cc, 0x2de92c6f, 0x4a7484aa, 0x5cb0a9dc, 0x76f988da,
    0x983e5152, 0xa831c66d, 0xb00327c8, 0xbf597fc7, 0xc6e00bf3, 0xd5a79147, 0x06ca6351, 0x14292967,
    0x27b70a85, 0x2e1b2138, 0x4d2c6dfc, 0x53380d13, 0x650a7354, 0x766a0abb, 0x81c2c92e, 0x92722c85,
    0xa2bfe8a1, 0xa81a664b, 0xc24b8b70, 0xc76c51a3, 0xd192e819, 0xd6990624, 0xf40e3585, 0x106aa070,
    0x19a4c116, 0x1e376c08, 0x2748774c, 0x34b0bcb5, 0x391c0cb3, 0x4ed8aa4a, 0x5b9cca4f, 0x682e6ff3,
    0x748f82ee, 0x78a5636f, 0x84c87814, 0x8cc70208, 0x90befffa, 0xa4506ceb, 0xbef9a3f7, 0xc67178f2]

/-- The words of a hash. -/
structure Words where
  a : UInt32
  b : UInt32
  c : UInt32
  d : UInt32
  e : UInt32
  f : UInt32
  g : UInt32
  h : UInt32
deriving DecidableEq

/-- `sha256_ctx_t`; `block` holds the bytes that are used. -/
structure Sha256 where
  state : Words
  bits : UInt64
  block : Bytes
deriving DecidableEq

def rotr32 (v n : UInt32) : UInt32 := (v >>> n) ||| (v <<< (32 - n))

/-- A word of the block. -/
def blockWord (p : Bytes) (i : Nat) : UInt32 :=
  ((p.getD (i * 4) 0).toUInt32 <<< 24) ||| ((p.getD (i * 4 + 1) 0).toUInt32 <<< 16) |||
    ((p.getD (i * 4 + 2) 0).toUInt32 <<< 8) ||| (p.getD (i * 4 + 3) 0).toUInt32

/-- The next of the words `w`. -/
def nextWord (w : List UInt32) : UInt32 :=
  let i := w.length
  let at_ (k : Nat) : UInt32 := w.getD (i - k) 0
  let s0 := rotr32 (at_ 15) 7 ^^^ rotr32 (at_ 15) 18 ^^^ (at_ 15 >>> 3)
  let s1 := rotr32 (at_ 2) 17 ^^^ rotr32 (at_ 2) 19 ^^^ (at_ 2 >>> 10)
  at_ 16 + s0 + at_ 7 + s1

def schedule (p : Bytes) : List UInt32 :=
  (List.range 48).foldl (fun w _ => w ++ [nextWord w]) ((List.range 16).map (blockWord p))

def sha256Round (v : Words) (kw : UInt32 × UInt32) : Words :=
  let s1 := rotr32 v.e 6 ^^^ rotr32 v.e 11 ^^^ rotr32 v.e 25
  let ch := (v.e &&& v.f) ^^^ (~~~v.e &&& v.g)
  let t1 := v.h + s1 + ch + kw.1 + kw.2
  let s0 := rotr32 v.a 2 ^^^ rotr32 v.a 13 ^^^ rotr32 v.a 22
  let maj := (v.a &&& v.b) ^^^ (v.a &&& v.c) ^^^ (v.b &&& v.c)
  let t2 := s0 + maj
  ⟨t1 + t2, v.a, v.b, v.c, v.d + t1, v.e, v.f, v.g⟩

/-- `sha256_block`. -/
def sha256Block (s : Words) (p : Bytes) : Words :=
  let v := (sha256K.zip (schedule p)).foldl sha256Round s
  ⟨s.a + v.a, s.b + v.b, s.c + v.c, s.d + v.d, s.e + v.e, s.f + v.f, s.g + v.g, s.h + v.h⟩

def sha256Init : Sha256 where
  state := ⟨0x6a09e667, 0xbb67ae85, 0x3c6ef372, 0xa54ff53a, 0x510e527f, 0x9b05688c, 0x1f83d9ab,
    0x5be0cd19⟩
  bits := 0
  block := []

/-- A byte into the block, which is hashed when it is full. -/
def pushByte (ctx : Sha256) (b : UInt8) : Sha256 :=
  let block := ctx.block ++ [b]
  if block.length = 64 then { ctx with state := sha256Block ctx.state block, block := [] }
  else { ctx with block }

/-- `sha256_update`. -/
def sha256Update (ctx : Sha256) (data : Bytes) : Sha256 :=
  data.foldl pushByte { ctx with bits := ctx.bits + data.length.toUInt64 * 8 }

def bigEndian (w : UInt32) : Bytes :=
  [(w >>> 24).toUInt8, (w >>> 16).toUInt8, (w >>> 8).toUInt8, w.toUInt8]

/-- The number of bits, the highest byte first. -/
def bitCount (bits : UInt64) : Bytes :=
  ([7, 6, 5, 4, 3, 2, 1, 0] : List UInt64).map fun i => (bits >>> (i * 8)).toUInt8

/-- `sha256_final`. -/
def sha256Final (ctx : Sha256) : Bytes :=
  let block := ctx.block ++ [0x80]
  let (state, block) :=
    if 56 < block.length then
      (sha256Block ctx.state (block ++ List.replicate (64 - block.length) 0), [])
    else (ctx.state, block)
  let block := block ++ List.replicate (56 - block.length) 0 ++ bitCount ctx.bits
  let s := sha256Block state block
  [s.a, s.b, s.c, s.d, s.e, s.f, s.g, s.h].flatMap bigEndian

/-- `password_hash`. -/
def passwordHash (password salt : Bytes) : Bytes :=
  let ctx := sha256Update (sha256Update (sha256Update sha256Init salt) (ascii ":")) password
  (sha256Final ctx).flatMap fun b => [hexByte (b.toNat / 16), hexByte (b.toNat % 16)]

/-- `secure_equal`: the first 64 bytes agree. -/
def secureEqual (a b : Bytes) : Bool :=
  (List.range 64).foldl (fun diff i => diff ||| (a.getD i 0 ^^^ b.getD i 0)) 0 = 0

/-- `make_salt`, with the counter. -/
def makeSalt (name : Bytes) (uid : Nat) (counter : UInt32) : Bytes :=
  let h := name.foldl (fun h b => (h ^^^ b.toUInt32) * 16777619) (2166136261 ^^^ counter)
  let h := h ^^^ (uid.toUInt32 * 2654435761)
  ((List.range 8).foldl (fun (s : Bytes × UInt32) i =>
    (s.1 ++ [hexByte ((s.2 >>> ((i.toUInt32 &&& 7) * 4)) &&& 15).toNat],
      (s.2 <<< 5) ||| (s.2 >>> 27))) ([], h)).1

/-! ### Accounts -/

/-- `copy_text` into a buffer of `cap` bytes. -/
def copyText (src : Bytes) (cap : Nat) : Bytes := src.take (cap - 1)

def isLetter (c : UInt8) : Bool :=
  (97 ≤ c.toNat && c.toNat ≤ 122) || (65 ≤ c.toNat && c.toNat ≤ 90)

/-- `valid_name`. -/
def validName (name : Bytes) : Bool :=
  match name with
  | [] => false
  | c :: _ =>
    isLetter c && name.all (fun c => isLetter c || isDigit c || c = 95 || c = 45) &&
      decide (name.length ≤ userNameMax)

def rootName : Bytes := ascii "root"
def userName : Bytes := ascii "user"
def guestName : Bytes := ascii "guest"
def metaName : Bytes := ascii "meta"

/-- `index_of`. -/
def indexOf (users : List Account) (name : Bytes) : Option Nat :=
  users.findIdx? fun u => u.active && u.name = name

/-- The loop of `next_uid`. -/
def freeUid (users : List Account) : Nat → Nat → Nat
  | 0, uid => uid
  | fuel + 1, uid =>
    if users.any (fun u => u.active && u.uid = uid) then freeUid users fuel (u32 (uid + 1)) else uid

/-- `next_uid`: every account takes one number at most. -/
def nextUid (users : List Account) (role : Int) : Nat :=
  freeUid users (users.length + 1) (if role = roleGuest then userUidGuest else userUidFirst)

/-- `user_role_name`. -/
def userRoleName (role : Int) : Bytes :=
  if role = roleGuest then ascii "guest"
  else if role = roleUser then ascii "user"
  else if role = roleOperator then ascii "operator"
  else if role = roleAdmin then ascii "admin"
  else ascii "unknown"

/-- `user_parse_role`: its code, and the role if there is one. -/
def userParseRole (name : Bytes) : Int × Option Int :=
  if name = ascii "guest" then (0, some roleGuest)
  else if name = ascii "user" then (0, some roleUser)
  else if name = ascii "operator" then (0, some roleOperator)
  else if name = ascii "admin" ∨ name = ascii "root" then (0, some roleAdmin)
  else (-1, none)

def isSpace (b : UInt8) : Bool := b = 32 || b = 9 || b = 10 || b = 13

/-- `kstrtou`, in base ten. -/
def kstrtou (s : Bytes) : Nat :=
  ((s.dropWhile isSpace).takeWhile isDigit).foldl (fun n b => u32 (n * 10 + (b.toNat - 48))) 0

/-- The account that `add_loaded` makes of a section, if any; `junk` is what `parsed` holds
before it is written. -/
def loadedAccount (cfg : CfgFile) (junk : Int) (name : Bytes) : Option Account :=
  if !validName name then none
  else
    let get (key : String) : Option Bytes := cfgGet cfg name (ascii key)
    match get "uid", get "gid", get "role", get "salt", get "password" with
    | some uid, some gid, some role, some salt, some hash =>
      let (code, parsed) := userParseRole role
      if code = 0 ∨ hash.length ≠ 64 then none
      else some {
        name := copyText name (userNameMax + 1)
        uid := kstrtou uid
        gid := kstrtou gid
        role := parsed.getD junk
        home := copyText ((get "home").getD (ascii "/home")) (userHomeMax + 1)
        shell := copyText ((get "shell").getD (ascii "/bin/sh")) (userShellMax + 1)
        salt := copyText salt 9
        passhash := copyText hash 65
        active := get "active" ≠ some (ascii "0") }
    | _, _, _, _, _ => none

/-- `add_loaded`. -/
def addLoaded (cfg : CfgFile) (junk : Nat → Int) (users : List Account) (sec : Section) :
    List Account :=
  if userMax ≤ users.length then users
  else
    match loadedAccount cfg (junk users.length) sec.name with
    | none => users
    | some u => users ++ [u]

/-- `initialise_account`, with the salt counter. -/
def initialiseAccount (name : Bytes) (role : Int) (password : Bytes) (uid : Nat)
    (counter : UInt32) : Account :=
  let salt := makeSalt name uid counter
  { name := copyText name (userNameMax + 1)
    uid
    gid := if uid = userUidRoot then 0 else uid
    role
    home := if uid = userUidRoot then ascii "/root" else ascii "/home/" ++ name
    shell := ascii "/bin/sh"
    salt
    passhash := passwordHash password salt
    active := true }

/-! ### The session -/

/-- The variables of `users.c`, and the credentials of `vfs.c`. -/
structure State where
  users : List Account
  current : Option Nat
  saltCounter : UInt32
  usercfg : CfgFile
  sessionUid : Nat
  sessionGid : Nat
deriving DecidableEq

/-- The variables before the first call. -/
def State.boot : State where
  users := []
  current := none
  saltCounter := 1
  usercfg := []
  sessionUid := 0
  sessionGid := 0

/-- `cfg_set` without its code. -/
def put (name : Bytes) (cfg : CfgFile) (kv : String × Bytes) : CfgFile :=
  (cfgSet cfg name (ascii kv.1) kv.2).2

/-- The keys of an account. -/
def accountPairs (u : Account) : List (String × Bytes) :=
  [("uid", kuitoa u.uid), ("gid", kuitoa u.gid), ("role", userRoleName u.role), ("home", u.home),
    ("shell", u.shell), ("salt", u.salt), ("password", u.passhash), ("active", ascii "1")]

def saveAccount (cfg : CfgFile) (u : Account) : CfgFile :=
  if u.active then (accountPairs u).foldl (put u.name) cfg else cfg

/-- What `user_save` writes. -/
def savedConfig (users : List Account) : CfgFile :=
  users.foldl saveAccount (put metaName [] ("format", ascii "1"))

/-- `user_save`; `stored` says whether the file could be written. -/
def userSave (stored : Bool) (s : State) : Int × State :=
  (if stored then 0 else -1, { s with usercfg := savedConfig s.users })

/-- `vfs_set_credentials` for the account that becomes the current one. -/
def enter (i : Nat) (s : State) : State :=
  match s.users[i]? with
  | some u => { s with current := some i, sessionUid := u.uid, sessionGid := u.gid }
  | none => s

/-- An account that `user_init` makes where there is none. -/
def addDefault (name : Bytes) (role : Int) (uid : Nat) (s : State) : State :=
  if indexOf s.users name = none ∧ s.users.length < userMax then
    { s with
      users := s.users ++ [initialiseAccount name role (ascii "atmkoala") uid s.saltCounter]
      saltCounter := s.saltCounter + 1 }
  else s

/-- The accounts of a configuration file. -/
def loadAccounts (cfg : CfgFile) (junk : Nat → Int) : List Account :=
  (cfg.filter (·.name ≠ metaName)).foldl (addLoaded cfg junk) []

/-- The configuration that `user_init` starts from; `file` is what `cfg_load` reads, and `none`
in live mode. -/
def initConfig (file : Option (Option Bytes)) (cfg : CfgFile) : CfgFile :=
  match file with
  | some bytes => (cfgLoad cfg bytes).2
  | none => cfg

/-- `user_init`. -/
def userInit (file : Option (Option Bytes)) (junk : Nat → Int) (stored : Bool) (s : State) :
    Int × State :=
  let cfg := initConfig file s.usercfg
  let s := { s with users := loadAccounts cfg junk, current := none, usercfg := cfg }
  let s := addDefault rootName roleAdmin userUidRoot s
  let s := addDefault userName roleUser userUidFirst s
  let s := addDefault guestName roleGuest userUidGuest s
  let s := (userSave stored s).2
  match indexOf s.users rootName with
  | none => (-1, s)
  | some root => (0, enter root s)

/-- `user_add`. -/
def userAdd (name : Bytes) (role : Int) (password : Option Bytes) (stored : Bool) (s : State) :
    Int × State :=
  match password with
  | none => (-1, s)
  | some password =>
    if !validName name ∨ password.length < 4 ∨ role < roleGuest ∨ roleAdmin < role then (-1, s)
    else if userMax ≤ s.users.length ∨ indexOf s.users name ≠ none then (-1, s)
    else if role = roleAdmin then (-1, s)
    else
      let uid := nextUid s.users role
      userSave stored { s with
        users := s.users ++ [initialiseAccount name role password uid s.saltCounter]
        saltCounter := s.saltCounter + 1 }

/-- `user_del`. -/
def userDel (name : Bytes) (stored : Bool) (s : State) : Int × State :=
  match indexOf s.users name with
  | none => (-1, s)
  | some idx =>
    if name = rootName then (-1, s)
    else
      let users := s.users.eraseIdx idx
      let current :=
        if s.current = some idx then indexOf users rootName
        else s.current.map fun i => if idx < i then i - 1 else i
      userSave stored { s with users, current }

/-- `user_set_password`. -/
def userSetPassword (name : Bytes) (password : Option Bytes) (stored : Bool) (s : State) :
    Int × State :=
  match indexOf s.users name, password with
  | some idx, some password =>
    if password.length < 4 then (-1, s)
    else
      let rekey (u : Account) : Account :=
        let salt := makeSalt name u.uid s.saltCounter
        { u with salt, passhash := passwordHash password salt }
      userSave stored
        { s with users := s.users.modify idx rekey, saltCounter := s.saltCounter + 1 }
  | _, _ => (-1, s)

/-- `user_set_role`. -/
def userSetRole (name : Bytes) (role : Int) (stored : Bool) (s : State) : Int × State :=
  match indexOf s.users name with
  | none => (-1, s)
  | some idx =>
    if name = rootName ∨ role < roleGuest ∨ roleOperator < role then (-1, s)
    else userSave stored { s with users := s.users.modify idx ({ · with role }) }

/-- `user_auth`. -/
def userAuth (users : List Account) (name : Bytes) (password : Option Bytes) : Bool :=
  match (indexOf users name).bind (users[·]?), password with
  | some u, some password => u.active && secureEqual (passwordHash password u.salt) u.passhash
  | _, _ => false

/-- `user_login`. -/
def userLogin (name : Bytes) (password : Option Bytes) (s : State) : Int × State :=
  match indexOf s.users name with
  | none => (-1, s)
  | some idx => if !userAuth s.users name password then (-1, s) else (0, enter idx s)

/-- `user_logout`. -/
def userLogout (s : State) : State :=
  match indexOf s.users guestName with
  | none => s
  | some guest => enter guest s

/-- `user_current`. -/
def userCurrent (s : State) : Option Account := s.current.bind (s.users[·]?)

end AtmKoala.Users
