import AtmKoala.Vfs.Namespace

/-!
The references of inodes, from the state `vfs_init` builds.

* `vfsInit` is that state, with memory for all of it.
* `Refers` says what refers to an inode: `g_root`, a mount point, an entry of a directory
  that is found from the root, or a descriptor. `Counted` asks that no inode has more of
  these than references.
* `init_undercounted`: no run from there is counted throughout. `resolve_path` hands out
  `g_root` without a reference, and `vfs_init` gives it back once, at the end of the
  symlink `/lib64`, where there is a directory already.
* `stat_destroys_root`: as many calls as `g_root` has references, each on `/`, destroy it.
-/

namespace AtmKoala.Vfs

open Lib

/-! ### What `vfs_init` builds -/

/-- `ramfs_mkdir_child`. -/
def ramfsMkdirChild (w : World) (parent : Ino) (name : String) : Option (World × Option Ino) :=
  (ramfsMkdirImpl w parent name.toList (fun _ => true) true).map fun (w, _, out) => (w, out)

/-- A directory that is filled and given back. -/
def inChild (w : World) (parent : Ino) (name : String) (fill : World → Ino → Option World) :
    Option World := do
  match ← ramfsMkdirChild w parent name with
  | (w, none) => some w
  | (w, some d) => inodeUnref (← fill w d) d

def ramfsMkfile (w : World) (parent : Ino) (name : String) : Option World := do
  let (w, r, f) ← ramfsCreateImpl w parent name.toList fun _ => true
  let (w, f) ← if r = 0 then some (w, f) else ramfsLookup w parent name.toList
  match f with
  | none => some w
  | some f => inodeUnref w f

def mkfiles (names : List String) (w : World) (parent : Ino) : Option World :=
  names.foldlM (fun w name => ramfsMkfile w parent name) w

/-- An inode with operations of its own, put in the root of a file system. -/
def synthetic (w : World) (root : Ino) (name : String) : Option World := do
  let (w, di) := inodeAlloc w .file
  let (w, _) ← ramfsLinkImpl w root name.toList di true
  inodeUnref w di

def symlinks (links : List (String × String)) (w : World) (dir : Ino) : Option World :=
  links.foldlM (fun w link =>
    (ramfsSymlinkImpl w dir link.1.toList link.2.toList fun _ => true).map Prod.fst) w

/-- The names of `dev_entries`. -/
def devEntries : List String :=
  ["null", "zero", "random", "urandom", "tty", "tty0", "kmsg", "stdin", "stdout", "stderr"]

def devfsCreate (w : World) : Option (World × Ino) := do
  let (w, root) ← ramfsCreateRoot w
  let w ← devEntries.foldlM (fun w name => synthetic w root name) w
  let w ← symlinks [("fd", "/proc/self/fd")] w root
  let w ← synthetic w root "hda"
  let w ← synthetic w root "sda"
  some (w, root)

/-- The names of `proc_files`. -/
def procFiles : List String :=
  ["version", "cmdline", "uptime", "meminfo", "cpuinfo", "mounts", "mtab"]

def procfsCreate (w : World) : Option (World × Ino) := do
  let (w, root) ← ramfsCreateRoot w
  let w ← procFiles.foldlM (fun w name => synthetic w root name) w
  let w ← symlinks [("self", "/proc/1")] w root
  let w ← inChild w root "1" fun w p1 => do
    let w ← mkfiles ["cmdline", "status"] w p1
    inChild w p1 "fd" (symlinks [("0", "/dev/stdin"), ("1", "/dev/stdout"), ("2", "/dev/stderr")])
  some (w, root)

def sysfsCreate (w : World) : Option (World × Ino) := do
  let (w, root) ← ramfsCreateRoot w
  let w ← inChild w root "kernel"
    (mkfiles ["hostname", "osrelease", "version", "arch", "pid_max"])
  let w ← inChild w root "net" fun w nd => do
    let w ← inChild w nd "lo" (mkfiles ["address", "operstate", "mtu"])
    inChild w nd "eth0" (mkfiles ["operstate", "mtu", "type"])
  let w ← inChild w root "block" fun w bd => inChild w bd "sda" (mkfiles ["size", "removable"])
  some (w, root)

def populateEtc (w : World) (etc : Ino) : Option World := do
  let w ← mkfiles ["hostname", "timezone", "os-release", "fstab", "passwd", "shadow", "group",
    "hosts", "resolv.conf", "motd", "issue", "shells", "profile"] w etc
  let w ← inChild w etc "network" (mkfiles ["interfaces"])
  inChild w etc "sysctl.d" (mkfiles ["99-atmkoala.conf"])

def populateHome (w : World) (home : Ino) : Option World :=
  inChild w home "user" fun w u => do
    let w ← mkfiles [".profile", ".shrc", "readme.txt"] w u
    let w ← inChild w u "Documents" fun w _ => some w
    inChild w u "Downloads" fun w _ => some w

def populateUsr (w : World) (usr : Ino) : Option World := do
  let w ← inChild w usr "bin" fun w _ => some w
  let w ← inChild w usr "lib" fun w _ => some w
  let w ← inChild w usr "share" fun w share => inChild w share "man" fun w _ => some w
  inChild w usr "local" fun w local_ => inChild w local_ "bin" fun w _ => some w

def populateVar (w : World) (var : Ino) : Option World := do
  let w ← inChild w var "log" (mkfiles ["syslog", "kern.log", "dmesg"])
  let w ← inChild w var "run" (mkfiles ["utmp"])
  let w ← inChild w var "cache" fun w _ => some w
  let w ← inChild w var "lib" fun w _ => some w
  inChild w var "spool" fun w _ => some w

/-- What is done at a path, the inode being given back. -/
def atPath (w : World) (path : String) (fill : World → Ino → Option World) : Option World := do
  match ← resolvePath w path.toList false with
  | (w, none) => some w
  | (w, some i) => inodeUnref (← fill w i) i

/-- A file system is mounted on a directory, whose reference is kept. -/
def mountOn (w : World) (path : String) (create : World → Option (World × Ino)) : Option World := do
  let (w, fs) ← create w
  match ← resolvePath w path.toList false with
  | (w, none) => some w
  | (w, some mp) => some (w.mapInode mp fun x => { x with mountpoint := some fs })

def topDirs : List String :=
  ["bin", "boot", "dev", "etc", "home", "lib", "lib64", "mnt", "opt", "proc", "root", "run", "srv",
    "sys", "tmp", "usr", "var"]

/-- The descriptors 0, 1 and 2. -/
def openNull (w : World) (nullI : Ino) : Option World :=
  [(0 : Fin 64), 1, 2].foldlM (fun w k => inodeRef (setFd w k (some nullI)) nullI) w

/-- `vfs_init`. -/
def vfsInit : Option World := do
  let w ← freshRamfs
  let w ← topDirs.foldlM (fun w name => (ramfsMkdirChild w w.root name).map Prod.fst) w
  let w ← atPath w "/root" (mkfiles [".profile"])
  let w ← atPath w "/etc" populateEtc
  let w ← atPath w "/home" populateHome
  let w ← atPath w "/usr" populateUsr
  let w ← atPath w "/var" populateVar
  let w ← atPath w "/tmp" fun w _ => some w
  let w ← atPath w "/run" fun w _ => some w
  let (w, _) ← vfsSymlink w "/lib".toList "/lib64".toList true fun _ => true
  let (w, bin) ← resolvePath w "/bin".toList false
  let w ← ramfsMkfile w (← bin) "sh"
  let (w, _) ← vfsSymlink w "/bin/sh".toList "/usr/bin/sh".toList true fun _ => true
  let w ← mountOn w "/dev" devfsCreate
  let w ← mountOn w "/proc" procfsCreate
  let w ← mountOn w "/sys" sysfsCreate
  atPath w "/dev/null" openNull

/-! ### References -/

inductive Reference where
  | gRoot
  | mount (i : Ino)
  | dentry (d : Ino) (name : Name)
  | fd (k : Fin 64)
deriving DecidableEq

/-- An inode is found from the root, through entries and mount points. -/
def Found (w : World) (i : Ino) : Prop :=
  Relation.ReflTransGen (fun a b => (∃ n, (n, b) ∈ children w a) ∨
    ∃ x, w.inodes a = some x ∧ x.mountpoint = some b) w.root i

/-- What refers to an inode. -/
def Refers (w : World) (i : Ino) : Reference → Prop
  | .gRoot => i = w.root
  | .mount j => ∃ x, w.inodes j = some x ∧ x.mountpoint = some i
  | .dentry d name => Found w d ∧ (name, i) ∈ children w d
  | .fd k => w.fds k = some i

/-- **Every inode that something refers to** is there, and its count is no less than the
number of its references. -/
def Counted (w : World) : Prop :=
  ∀ i (refs : List Reference), refs.Nodup → refs ≠ [] → (∀ r ∈ refs, Refers w i r) →
    ∃ x, w.inodes i = some x ∧ (refs.length : Int) ≤ x.refcount

/-- The references of `g_root`: itself, its two entries, and `..` in 17 directories. -/
def rootReferences : List Reference :=
  [.gRoot, .dentry 1 dot, .dentry 1 dotdot] ++ (List.range 17).map fun k => .dentry (k + 2) dotdot

theorem init_root : ∃ w, vfsInit = some w ∧ w.root = 1 ∧
    (w.inodes 1).map VfsInode.refcount = some 19 ∧ (dot, 1) ∈ children w 1 ∧
    (dotdot, 1) ∈ children w 1 ∧
    ∀ k ∈ List.range 17, (dotdot, 1) ∈ children w (k + 2) ∧ ∃ e ∈ children w 1, e.2 = k + 2 := by
  obtain ⟨w, made, facts⟩ := (Option.any_eq_true ..).mp (by decide +kernel :
    (vfsInit.any fun w => decide (w.root = 1 ∧
      (w.inodes 1).map VfsInode.refcount = some 19 ∧ (dot, 1) ∈ children w 1 ∧
      (dotdot, 1) ∈ children w 1 ∧
      ∀ k ∈ List.range 17, (dotdot, 1) ∈ children w (k + 2) ∧ ∃ e ∈ children w 1, e.2 = k + 2)) = true)
  exact ⟨w, made, of_decide_eq_true facts⟩

theorem init_not_counted {w : World} (made : vfsInit = some w) : ¬Counted w := by
  obtain ⟨w', made', root, count, self, up, tops⟩ := init_root
  obtain rfl := Option.some.inj (made.symm.trans made')
  intro counted
  have top : Found w 1 := by
    rw [← root]
    exact .refl
  obtain ⟨x, was, enough⟩ := counted 1 rootReferences (by decide) nofun fun r mem => by
    rcases List.mem_append.mp mem with mem | mem
    · simp only [List.mem_cons, List.not_mem_nil, or_false] at mem
      rcases mem with rfl | rfl | rfl
      · exact root.symm
      · exact ⟨top, self⟩
      · exact ⟨top, up⟩
    · obtain ⟨k, inside, rfl⟩ := List.mem_map.mp mem
      obtain ⟨there, e, named, same⟩ := tops k inside
      exact ⟨top.tail (.inl ⟨e.1, same ▸ named⟩), there⟩
  rw [was, Option.map_some] at count
  have fewer := Option.some.inj count
  have many : rootReferences.length = 20 := by decide
  omega

/-! ### The root is lost -/

/-- A call on `/` gives back a reference it has not taken. -/
theorem perform_stat_root (w : World) : perform w (.stat ['/']) = inodeUnref w w.root := by
  have found : resolvePath w ['/'] false = some (w, some w.root) := rfl
  simp only [perform, vfsStat, lookUp, found, Option.bind_eq_bind, Option.bind_some]
  cases inodeUnref w w.root with
  | none => rfl
  | some w' => rfl

/-- So many of them destroy the root. -/
theorem stats_destroy_root (n : Nat) (w : World)
    (few : ∀ x, w.inodes w.root = some x → x.refcount ≤ n) :
    ∃ m v, Run (fun w call w' => perform w call = some w') Anything w
      (List.replicate m (.stat ['/'])) v ∧ v.inodes v.root = none := by
  induction n generalizing w with
  | zero =>
    cases was : w.inodes w.root with
    | none => exact ⟨0, w, .nil w, was⟩
    | some x =>
      have last : x.refcount - 1 ≤ 0 := by
        have := few x was
        omega
      have taken : perform w (.stat ['/']) = some (w.setInode w.root none) := by
        rw [perform_stat_root, inodeUnref, was, Option.map_some, if_pos last]
      exact ⟨1, _, .single trivial taken, inodes_setInode_self _⟩
  | succ n ih =>
    cases was : w.inodes w.root with
    | none => exact ⟨0, w, .nil w, was⟩
    | some x =>
      obtain ⟨v, taken⟩ : ∃ v, perform w (.stat ['/']) = some v := by
        rw [perform_stat_root, inodeUnref, was]
        exact ⟨_, rfl⟩
      have given := taken
      rw [perform_stat_root] at given
      have fewer : ∀ y, v.inodes v.root = some y → y.refcount ≤ n := by
        intro y now
        rw [inodeUnref, was, Option.map_some] at given
        split at given
        · obtain rfl := Option.some.inj given
          have gone : (w.setInode w.root none).inodes w.root = none := inodes_setInode_self _
          exact absurd (now.symm.trans gone) (by rintro ⟨⟩)
        · obtain rfl := Option.some.inj given
          have now' : (w.setInode w.root (some { x with refcount := x.refcount - 1 })).inodes w.root =
              some y := now
          rw [inodes_setInode_self] at now'
          obtain rfl := Option.some.inj now'
          have := few x was
          simp only
          push_cast at this
          omega
      obtain ⟨m, u, run, lost⟩ := ih v fewer
      exact ⟨m + 1, u, .cons trivial taken run, lost⟩

/-- **The root's references are not counted**, in no run from the state `vfs_init` builds;
and every run goes on to one that destroys the root. -/
theorem root_undercounted {w₀ w : World} {calls : List Call} (made : vfsInit = some w₀)
    (run : Run (fun w call w' => perform w call = some w') Anything w₀ calls w) :
    (¬∀ k v, Run (fun w call w' => perform w call = some w') Anything w₀ (calls.take k) v →
      Counted v) ∧
    ∃ n v, Run (fun w call w' => perform w call = some w') Anything w₀
      (calls ++ List.replicate n (.stat ['/'])) v ∧ v.inodes v.root = none := by
  refine ⟨fun counted => init_not_counted made (counted 0 w₀ (.nil w₀)), ?_⟩
  obtain ⟨n, few⟩ : ∃ n : Nat, ∀ x, w.inodes w.root = some x → x.refcount ≤ n := by
    cases was : w.inodes w.root with
    | none => exact ⟨0, nofun⟩
    | some x =>
      refine ⟨x.refcount.toNat, fun y same => ?_⟩
      obtain rfl := Option.some.inj same
      exact Int.self_le_toNat _
  obtain ⟨m, v, rest, lost⟩ := stats_destroy_root n w few
  exact ⟨m, v, run.append rest, lost⟩

/-- The run of no call. -/
theorem root_undercounted_init : ∃ w₀, vfsInit = some w₀ ∧
    (¬∀ k v, Run (fun w call w' => perform w call = some w') Anything w₀ (([] : List Call).take k) v →
      Counted v) ∧
    ∃ n v, Run (fun w call w' => perform w call = some w') Anything w₀
      ([] ++ List.replicate n (.stat ['/'])) v ∧ v.inodes v.root = none := by
  obtain ⟨w₀, made, -⟩ := init_root
  exact ⟨w₀, made, root_undercounted made (.nil w₀)⟩

/-- 19 calls on `/`, and `g_root` is freed with all that is below it. -/
theorem stat_destroys_root : ∃ w₀ w, vfsInit = some w₀ ∧
    Run (fun w call w' => perform w call = some w') Anything w₀
      (List.replicate 19 (.stat ['/'])) w ∧ w.inodes w.root = none ∧ ¬Counted w := by
  obtain ⟨w₀, made, -⟩ := init_root
  have facts : (vfsInit.bind fun w => runAll perform Anything w
      (List.replicate 19 (.stat ['/']))).any (fun w => decide (w.inodes w.root = none)) = true := by
    decide +kernel
  obtain ⟨w, ran, lost⟩ := (Option.any_eq_true ..).mp facts
  rw [made, Option.bind_some] at ran
  have lost := of_decide_eq_true lost
  refine ⟨w₀, w, made, .of_runAll ran, lost, fun counted => ?_⟩
  obtain ⟨x, was, -⟩ := counted w.root [.gRoot] (by decide) nofun fun r mem => by
    obtain rfl := List.mem_singleton.mp mem
    rfl
  rw [lost] at was
  cases was

end AtmKoala.Vfs
