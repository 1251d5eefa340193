import Mathlib.Data.Finset.Basic
import Elsm.Db.State
import Elsm.Format.FileName
import Elsm.Lib.Transition
import Elsm.Version.Recover

/-!
# Who owns a directory (`PosixEnv::LockFile`, `DB::Open`, `DBImpl::~DBImpl`, `DestroyDB`)

Two engines on one directory would destroy each other's files, so `DBImpl::Recover` and `DestroyDB` take
the lock `LOCK` of the directory first.  With locks as `env.h` describes them this is enough.  The `PosixEnv` of
the enclave has no such locks: the body of `LockFile` is commented out, so it succeeds always and gives a null
pointer for a lock, which `UnlockFile` reads.

What the disk holds when a database is opened, and the names a directory is listed with, are arguments.
-/

namespace Elsm

/-! ## The environment -/

/-- `Env::LockFile`, with its status and what it stores in `*lock`, and `Env::UnlockFile`. -/
structure LockService (E L : Type) where
  lockFile : E → Bytes → Option Status × Option L × E
  unlockFile : E → Option L → Except Stop (Option Status × E)

structure PosixFileLock where
  fd : Int
  name : Bytes
  deriving DecidableEq

/-- `PosixEnv`, with `locks_`. -/
structure PosixEnv where
  locks : Finset Bytes

namespace PosixEnv

def lockOrUnlock (_fd : Int) (_lock : Bool) : Int := 0

def lockFile (env : PosixEnv) (_fname : Bytes) : Option Status × Option PosixFileLock × PosixEnv := (none, none, env)

def unlockFile (env : PosixEnv) : Option PosixFileLock → Except Stop (Option Status × PosixEnv)
  -- the lock is read without a look at the pointer
  | none => .error .abort
  | some myLock =>
    let result := if lockOrUnlock myLock.fd false = -1 then some (.ioError "unlock") else none
    .ok (result, ⟨env.locks.erase myLock.name⟩)

def service : LockService PosixEnv PosixFileLock := ⟨lockFile, unlockFile⟩

/-- The body of `LockFile` that stands in the comment, on a host that opens every file as `0`. -/
def commentedLockFile (env : PosixEnv) (fname : Bytes) : Option Status × Option PosixFileLock × PosixEnv :=
  if fname ∈ env.locks then (some (.ioError "lock"), none, env)
  else (none, some ⟨0, fname⟩, ⟨insert fname env.locks⟩)

def commentedService : LockService PosixEnv PosixFileLock := ⟨commentedLockFile, unlockFile⟩

end PosixEnv

/-! ## The callers -/

def inDirectory (dbname name : Bytes) : Bytes := dbname ++ ascii ['/'] ++ name

def lockPath (dbname : Bytes) : Bytes := inDirectory dbname lockFileName

structure OpenOptions where
  createIfMissing : Bool
  errorIfExists : Bool

/-- What `DB::Open` meets on the disk: whether there is a `CURRENT`, and the statuses of `NewDB` and of
everything that follows. -/
structure DiskAnswers where
  current : Bool
  newDB : Option Status
  recovered : Option Status

/-- `DBImpl` as far as the lock goes. -/
structure DBImpl (L : Type) where
  dbname : Bytes
  dbLock : Option L

structure Engines (E L : Type) where
  env : E
  live : List (DBImpl L)

inductive EngineEvent where
  | openDB (options : OpenOptions) (dbname : Bytes) (disk : DiskAnswers)
  /-- `delete` of the database at an index. -/
  | destroy (i : Nat)
  | destroyDB (dbname : Bytes) (filenames : List Bytes)

/-- `DBImpl::Recover` behind the lock, and the rest of `DB::Open`. -/
def recoverLocked (options : OpenOptions) (dbname : Bytes) (disk : DiskAnswers) : Option Status :=
  if disk.current then
    if options.errorIfExists then some (.invalidArgument (toText dbname ++ ": exists (error_if_exists is true)"))
    else disk.recovered
  else if options.createIfMissing then
    match disk.newDB with
    | some error => some error
    | none => disk.recovered
  else some (.invalidArgument (toText dbname ++ ": does not exist (create_if_missing is false)"))

section Callers

variable {E L : Type} (service : LockService E L)

/-- `DBImpl::Recover`, with `db_lock_`. -/
def recoverDB (env : E) (options : OpenOptions) (dbname : Bytes) (disk : DiskAnswers) : Option Status × Option L × E :=
  match service.lockFile env (lockPath dbname) with
  | (some error, lock, env) => (some error, lock, env)
  | (none, lock, env) => (recoverLocked options dbname disk, lock, env)

/-- `DBImpl::~DBImpl` -/
def DBImpl.destroy (env : E) (db : DBImpl L) : Except Stop E :=
  match db.dbLock with
  | none => .ok env
  | some lock => (service.unlockFile env (some lock)).map Prod.snd

namespace Engines

def openDB (s : Engines E L) (options : OpenOptions) (dbname : Bytes) (disk : DiskAnswers) :
    Except Stop (Option Status × Engines E L) :=
  match recoverDB service s.env options dbname disk with
  | (none, dbLock, env) => .ok (none, ⟨env, s.live ++ [⟨dbname, dbLock⟩]⟩)
  | (some error, dbLock, env) =>
    (DBImpl.destroy service env ⟨dbname, dbLock⟩).map fun env => (some error, ⟨env, s.live⟩)

def isDatabaseFile (name : Bytes) : Bool :=
  match parseFileName name with
  | some (_, type) => decide (type ≠ .dbLockFile)
  | none => false

def destroyedFiles (dbname : Bytes) (filenames : List Bytes) : List Bytes :=
  (filenames.filter isDatabaseFile).map (inDirectory dbname) ++ [lockPath dbname]

/-- `DestroyDB`, with the files it deletes. -/
def destroyDB (s : Engines E L) (dbname : Bytes) (filenames : List Bytes) :
    Except Stop (Option Status × List Bytes × Engines E L) :=
  if filenames = [] then .ok (none, [], s)
  else
    match service.lockFile s.env (lockPath dbname) with
    | (some error, _, env) => .ok (some error, [], ⟨env, s.live⟩)
    | (none, lock, env) =>
      (service.unlockFile env lock).map fun (_, env) => (none, destroyedFiles dbname filenames, ⟨env, s.live⟩)

def step (s : Engines E L) : EngineEvent → Except Stop (Engines E L)
  | .openDB options dbname disk => (s.openDB service options dbname disk).map Prod.snd
  | .destroy i =>
    match s.live[i]? with
    | none => .error .disabled
    | some db => (db.destroy service s.env).map fun env => ⟨env, s.live.eraseIdx i⟩
  | .destroyDB dbname filenames => (s.destroyDB service dbname filenames).map fun result => result.2.2

end Engines

end Callers

/-! ## With the locks of `env.h` -/

/-- What `env.h` says about `LockFile` and `UnlockFile`.  `Holds env lock file` is that the lock was taken
on the file and not released, `Refuses env fname` that the file cannot be opened. -/
structure LockContract {E L File : Type} (service : LockService E L) (fileOf : Bytes → File)
    (Holds : E → L → File → Prop) (Refuses : E → Bytes → Prop) : Prop where
  failure : ∀ {env fname error lock env'}, service.lockFile env fname = (some error, lock, env') →
    lock = none ∧ (∀ other file, Holds env' other file ↔ Holds env other file) ∧
      (Refuses env fname ∨ ∃ other, Holds env other (fileOf fname))
  success : ∀ {env fname lock env'}, service.lockFile env fname = (none, lock, env') →
    ∃ own, lock = some own ∧ (∀ other, ¬Holds env other (fileOf fname)) ∧ (∀ file, ¬Holds env own file) ∧
      ∀ other file, Holds env' other file ↔ Holds env other file ∨ other = own ∧ file = fileOf fname
  release : ∀ {env lock file}, Holds env lock file →
    ∃ status env', service.unlockFile env (some lock) = .ok (status, env') ∧
      ∀ other file, Holds env' other file ↔ Holds env other file ∧ other ≠ lock

namespace LockContract

variable {E L File : Type} {service : LockService E L} {fileOf : Bytes → File} {Holds : E → L → File → Prop}
  {Refuses : E → Bytes → Prop}

/-- The locks held are those of the open databases, each a lock of its own. -/
structure Owned (fileOf : Bytes → File) (Holds : E → L → File → Prop) (s : Engines E L) : Prop where
  holds : ∀ lock file, Holds s.env lock file ↔
    ∃ db ∈ s.live, db.dbLock = some lock ∧ fileOf (lockPath db.dbname) = file
  locked : ∀ db ∈ s.live, ∃ lock, db.dbLock = some lock
  apart : s.live.Pairwise fun a b => fileOf (lockPath a.dbname) ≠ fileOf (lockPath b.dbname) ∧ a.dbLock ≠ b.dbLock

variable {s : Engines E L}

theorem Owned.of_iff (owned : Owned fileOf Holds s) {env : E}
    (same : ∀ lock file, Holds env lock file ↔ Holds s.env lock file) : Owned fileOf Holds ⟨env, s.live⟩ :=
  ⟨fun lock file => (same lock file).trans (owned.holds lock file), owned.locked, owned.apart⟩

theorem Owned.held (owned : Owned fileOf Holds s) {db : DBImpl L} (isLive : db ∈ s.live) {lock : L}
    (isLock : db.dbLock = some lock) : Holds s.env lock (fileOf (lockPath db.dbname)) :=
  (owned.holds _ _).mpr ⟨db, isLive, isLock, rfl⟩

section Keeps

variable (contract : LockContract service fileOf Holds Refuses)

include contract

theorem taken_and_released {env env' : E} {fname : Bytes} {lock : Option L}
    (taken : service.lockFile env fname = (none, lock, env')) :
    ∃ own status env'', lock = some own ∧ service.unlockFile env' lock = .ok (status, env'') ∧
      ∀ other file, Holds env'' other file ↔ Holds env other file := by
  obtain ⟨own, rfl, -, unheld, after⟩ := contract.success taken
  obtain ⟨status, env'', released, rest⟩ := contract.release ((after own _).mpr (.inr ⟨rfl, rfl⟩))
  refine ⟨own, status, env'', rfl, released, fun other file => ?_⟩
  rw [rest, after]
  constructor
  · rintro ⟨held | ⟨isOwn, -⟩, notOwn⟩
    · exact held
    · exact absurd isOwn notOwn
  · intro held
    refine ⟨.inl held, ?_⟩
    rintro rfl
    exact unheld file held

theorem Owned.opened (owned : Owned fileOf Holds s) {dbname : Bytes} {lock : Option L} {env : E}
    (taken : service.lockFile s.env (lockPath dbname) = (none, lock, env)) :
    Owned fileOf Holds ⟨env, s.live ++ [⟨dbname, lock⟩]⟩ ∧
      ∀ db ∈ s.live, fileOf (lockPath db.dbname) ≠ fileOf (lockPath dbname) := by
  obtain ⟨own, rfl, free, unheld, after⟩ := contract.success taken
  have others : ∀ db ∈ s.live, fileOf (lockPath db.dbname) ≠ fileOf (lockPath dbname) ∧ db.dbLock ≠ some own := by
    intro db isLive
    obtain ⟨lock, isLock⟩ := owned.locked db isLive
    have holds := owned.held isLive isLock
    refine ⟨fun same => free lock (same ▸ holds), fun isOwn => ?_⟩
    cases isLock.symm.trans isOwn
    exact unheld _ holds
  refine ⟨⟨fun lock file => ?_, ?_, ?_⟩, fun db isLive => (others db isLive).1⟩
  · rw [after, owned.holds]
    simp only [List.mem_append, List.mem_singleton, or_and_right, exists_or, exists_eq_left, Option.some.injEq]
    rw [eq_comm (a := lock), eq_comm (a := file)]
  · simp only [List.mem_append, List.mem_singleton]
    rintro db (isLive | rfl)
    · exact owned.locked db isLive
    · exact ⟨own, rfl⟩
  · rw [List.pairwise_append]
    refine ⟨owned.apart, List.pairwise_singleton _ _, fun db isLive new isNew => ?_⟩
    obtain rfl := List.mem_singleton.mp isNew
    exact others db isLive

theorem Owned.openDB (owned : Owned fileOf Holds s) (options : OpenOptions) (dbname : Bytes) (disk : DiskAnswers) :
    ∃ status s', s.openDB service options dbname disk = .ok (status, s') ∧ Owned fileOf Holds s' ∧
      (status = none → ∀ db ∈ s.live, fileOf (lockPath db.dbname) ≠ fileOf (lockPath dbname)) ∧
      ((∀ db ∈ s.live, fileOf (lockPath db.dbname) ≠ fileOf (lockPath dbname)) → ¬Refuses s.env (lockPath dbname) →
        recoverLocked options dbname disk = none → status = none) := by
  unfold Engines.openDB recoverDB
  cases taken : service.lockFile s.env (lockPath dbname) with | mk status rest =>
  obtain ⟨lock, env⟩ := rest
  cases status with
  | some error =>
    obtain ⟨rfl, same, cause⟩ := contract.failure taken
    refine ⟨some error, ⟨env, s.live⟩, rfl, owned.of_iff same, by simp, fun closed accepts _ => ?_⟩
    obtain ⟨other, holds⟩ := cause.resolve_left accepts
    obtain ⟨db, isLive, -, sameFile⟩ := (owned.holds _ _).mp holds
    exact absurd sameFile (closed db isLive)
  | none =>
    cases recovered : recoverLocked options dbname disk with
    | some error =>
      obtain ⟨own, status, env', rfl, released, same⟩ := contract.taken_and_released taken
      refine ⟨some error, ⟨env', s.live⟩, ?_, owned.of_iff same, by simp, by simp⟩
      simp only [DBImpl.destroy, released]
      rfl
    | none =>
      obtain ⟨stillOwned, others⟩ := owned.opened contract taken
      exact ⟨none, _, rfl, stillOwned, fun _ => others, fun _ _ _ => rfl⟩

omit contract in
theorem Owned.eq_of_lock (owned : Owned fileOf Holds s) {i j : Nat} {a b : DBImpl L} (isA : s.live[i]? = some a)
    (isB : s.live[j]? = some b) (same : a.dbLock = b.dbLock) : i = j := by
  obtain ⟨iBound, rfl⟩ := List.getElem?_eq_some_iff.mp isA
  obtain ⟨jBound, rfl⟩ := List.getElem?_eq_some_iff.mp isB
  have apart := List.pairwise_iff_getElem.mp owned.apart
  by_contra different
  cases Nat.lt_or_gt_of_ne different with
  | inl before => exact (apart i j iBound jBound before).2 same
  | inr after => exact (apart j i jBound iBound after).2 same.symm

theorem Owned.destroy (owned : Owned fileOf Holds s) {i : Nat} {db : DBImpl L} (isLive : s.live[i]? = some db) :
    ∃ env, db.destroy service s.env = .ok env ∧ Owned fileOf Holds ⟨env, s.live.eraseIdx i⟩ := by
  have inLive := List.mem_of_getElem? isLive
  obtain ⟨lock, isLock⟩ := owned.locked db inLive
  obtain ⟨status, env, released, rest⟩ := contract.release (owned.held inLive isLock)
  refine ⟨env, ?_, fun other file => ?_, fun other member => owned.locked other (List.mem_of_mem_eraseIdx member),
    owned.apart.sublist (List.eraseIdx_sublist _ _)⟩
  · simp only [DBImpl.destroy, isLock, released]
    rfl
  rw [rest, owned.holds]
  constructor
  · rintro ⟨⟨a, isA, isOther, isFile⟩, notLock⟩
    obtain ⟨j, isJ⟩ := List.getElem?_of_mem isA
    refine ⟨a, List.mem_eraseIdx_iff_getElem?.mpr ⟨j, ?_, isJ⟩, isOther, isFile⟩
    rintro rfl
    cases isLive.symm.trans isJ
    exact notLock (Option.some.inj (isOther.symm.trans isLock))
  · rintro ⟨a, member, isOther, isFile⟩
    obtain ⟨j, notErased, isJ⟩ := List.mem_eraseIdx_iff_getElem?.mp member
    refine ⟨⟨a, List.mem_of_mem_eraseIdx member, isOther, isFile⟩, ?_⟩
    rintro rfl
    exact notErased (owned.eq_of_lock isJ isLive (isOther.trans isLock.symm))

theorem Owned.destroyDB (owned : Owned fileOf Holds s) (dbname : Bytes) (filenames : List Bytes) :
    ∃ status files s', s.destroyDB service dbname filenames = .ok (status, files, s') ∧ Owned fileOf Holds s' := by
  rw [Engines.destroyDB]
  split
  · exact ⟨none, [], s, rfl, owned⟩
  · cases taken : service.lockFile s.env (lockPath dbname) with | mk status rest =>
    obtain ⟨lock, env⟩ := rest
    cases status with
    | some error => exact ⟨some error, [], ⟨env, s.live⟩, rfl, owned.of_iff (contract.failure taken).2.1⟩
    | none =>
      obtain ⟨own, status, env', -, released, same⟩ := contract.taken_and_released taken
      refine ⟨none, Engines.destroyedFiles dbname filenames, ⟨env', s.live⟩, ?_, owned.of_iff same⟩
      simp only [released]
      rfl

theorem Owned.step (owned : Owned fileOf Holds s) (event : EngineEvent) :
    s.step service event = .error .disabled ∨ ∃ s', s.step service event = .ok s' ∧ Owned fileOf Holds s' := by
  cases event with
  | openDB options dbname disk =>
    obtain ⟨status, s', opened, stillOwned, -⟩ := owned.openDB contract options dbname disk
    exact .inr ⟨s', by rw [Engines.step, opened]; rfl, stillOwned⟩
  | destroy i =>
    cases isLive : s.live[i]? with
    | none => exact .inl (by simp only [Engines.step, isLive])
    | some db =>
      obtain ⟨env, destroyed, stillOwned⟩ := owned.destroy contract isLive
      refine .inr ⟨_, ?_, stillOwned⟩
      simp only [Engines.step, isLive, destroyed]
      rfl
  | destroyDB dbname filenames =>
    obtain ⟨status, files, s', destroyed, stillOwned⟩ := owned.destroyDB contract dbname filenames
    exact .inr ⟨s', by rw [Engines.step, destroyed]; rfl, stillOwned⟩

/-- With locks that do what `env.h` says: no two open databases have the same lock file; every lock
that is released is one that is held; a second `DB::Open` fails; and a directory that is not open, or no
longer, opens if the disk lets it. -/
theorem directories_owned {env : E} (unlocked : ∀ lock file, ¬Holds env lock file)
    (reached : Transition.Reaches (Transition.Steps (Engines.step service)) (fun _ _ => True) ⟨env, []⟩ s) :
    (s.live.Pairwise fun a b => fileOf (lockPath a.dbname) ≠ fileOf (lockPath b.dbname)) ∧
      (∀ event, s.step service event ≠ .error .abort) ∧
      (∀ db ∈ s.live, ∀ options dbname disk, fileOf (lockPath db.dbname) = fileOf (lockPath dbname) →
        ∃ error s', s.openDB service options dbname disk = .ok (some error, s')) ∧
      ∀ options dbname disk, (∀ db ∈ s.live, fileOf (lockPath db.dbname) ≠ fileOf (lockPath dbname)) →
        ¬Refuses s.env (lockPath dbname) → recoverLocked options dbname disk = none →
        ∃ s', s.openDB service options dbname disk = .ok (none, s') := by
  have owned : Owned fileOf Holds s := by
    apply Transition.Reaches.invariant (Owned fileOf Holds) _ _ reached
    · exact ⟨fun lock file => by simp [unlocked], by simp, .nil⟩
    intro before after event owned _ taken
    rcases owned.step contract event with disabled | ⟨s', taken', stillOwned⟩
    · cases disabled.symm.trans taken
    · cases taken'.symm.trans taken
      exact stillOwned
  refine ⟨owned.apart.imp And.left, fun event aborts => ?_, fun db isLive options dbname disk same => ?_,
    fun options dbname disk closed accepts recovers => ?_⟩
  · rcases owned.step contract event with disabled | ⟨s', taken, -⟩
    · cases disabled.symm.trans aborts
    · cases taken.symm.trans aborts
  · obtain ⟨status, s', opened, -, onlyNew, -⟩ := owned.openDB contract options dbname disk
    cases status with
    | none => exact absurd same (onlyNew rfl db isLive)
    | some error => exact ⟨error, s', opened⟩
  · obtain ⟨status, s', opened, -, -, opens⟩ := owned.openDB contract options dbname disk
    exact ⟨s', opens closed accepts recovers ▸ opened⟩

end Keeps

end LockContract

/-! ## `PosixEnv` -/

namespace Engines

open PosixEnv (service commentedService)

/-- The directory that both `ecall_open` and `ecall_ycsb_open` open. -/
def minidb : Bytes := ascii "/home/ju/minidb".toList

/-- `ecall_open` and `ecall_ycsb_open`, with what they meet on the disk. -/
def ecallOpen (disk : DiskAnswers) : EngineEvent := .openDB ⟨true, false⟩ minidb disk

theorem commentedService_lockContract : LockContract commentedService id
    (fun env lock file => lock = ⟨0, file⟩ ∧ file ∈ env.locks) fun _ _ => False where
  failure {env fname error lock env'} fails := by
    simp only [commentedService, PosixEnv.commentedLockFile] at fails
    split at fails
    case isTrue held =>
      cases fails
      exact ⟨rfl, fun _ _ => .rfl, .inr ⟨_, rfl, held⟩⟩
    case isFalse => cases fails
  success {env fname lock env'} succeeds := by
    simp only [commentedService, PosixEnv.commentedLockFile] at succeeds
    split at succeeds
    case isTrue => cases succeeds
    case isFalse free =>
      cases succeeds
      refine ⟨_, rfl, fun other held => free held.2, fun file held => ?_, fun other file => ?_⟩
      · cases held.1
        exact free held.2
      · rw [Finset.mem_insert]
        constructor
        · rintro ⟨isLock, rfl | held⟩
          · exact .inr ⟨isLock, rfl⟩
          · exact .inl ⟨isLock, held⟩
        · rintro (⟨isLock, held⟩ | ⟨rfl, rfl⟩)
          · exact ⟨isLock, .inr held⟩
          · exact ⟨rfl, .inl rfl⟩
  release {env lock file} held := by
    obtain ⟨rfl, held⟩ := held
    refine ⟨_, _, rfl, fun other name => ?_⟩
    rw [Finset.mem_erase]
    constructor
    · rintro ⟨rfl, differs, isHeld⟩
      exact ⟨⟨rfl, isHeld⟩, fun same => differs (congrArg PosixFileLock.name same)⟩
    · rintro ⟨⟨rfl, isHeld⟩, differs⟩
      exact ⟨rfl, fun same => differs (by rw [same]), isHeld⟩

/-- With the commented body, after an open, a close and an open: a second open fails, another directory can be
opened and the database can be closed. -/
theorem directories_owned_commented : ∃ s,
    Transition.Reaches (Transition.Steps (step commentedService)) (fun _ _ => True) ⟨⟨∅⟩, []⟩ s ∧ s.live.length = 1 ∧
      s.step commentedService (.destroy 0) ≠ .error .abort ∧
      (∃ error s', s.openDB commentedService ⟨true, false⟩ minidb ⟨true, none, none⟩ = .ok (some error, s')) ∧
      ∃ s', s.openDB commentedService ⟨true, false⟩ [97] ⟨false, none, none⟩ = .ok (none, s') := by
  obtain ⟨s, run, isLive⟩ : ∃ s ∈ Transition.run (step commentedService) (fun _ _ => True) ⟨⟨∅⟩, []⟩
      [ecallOpen ⟨false, none, none⟩, .destroy 0, ecallOpen ⟨true, none, none⟩],
      s.live.map (·.dbname) = [minidb] := by decide +kernel
  have reached := Transition.reaches_of_run .refl run
  obtain ⟨-, valid, exclusive, reopens⟩ :=
    LockContract.directories_owned commentedService_lockContract (by simp) reached
  obtain ⟨db, isDb, isName⟩ := List.map_eq_singleton_iff.mp isLive
  refine ⟨s, reached, by simp [isDb], valid (.destroy 0), ?_, ?_⟩
  · exact exclusive db (by simp [isDb]) _ _ _ (by rw [isName])
  · refine reopens _ _ _ (fun other isOther => ?_) not_false rfl
    obtain rfl := List.mem_singleton.mp (isDb ▸ isOther)
    rw [isName]
    decide

/-- `PosixEnv` does not keep the contract, whatever it takes for a held lock. -/
theorem service_not_lockContract {File : Type} (fileOf : Bytes → File) (Holds : PosixEnv → PosixFileLock → File → Prop)
    (Refuses : PosixEnv → Bytes → Prop) : ¬LockContract service fileOf Holds Refuses := by
  intro contract
  obtain ⟨own, isLock, -⟩ := contract.success (show service.lockFile ⟨∅⟩ [] = (none, none, ⟨∅⟩) from rfl)
  cases isLock

/-- After `ecall_open`, `ecall_ycsb_open` succeeds on the same directory.  `DestroyDB` ends the process
there. -/
theorem minidb_opened_twice : ∃ s s',
    Transition.Reaches (Transition.Steps (step service)) (fun _ _ => True) ⟨⟨∅⟩, []⟩ s ∧
      s.live.length = 1 ∧ s.openDB service ⟨true, false⟩ minidb ⟨true, none, none⟩ = .ok (none, s') ∧
      ¬(s'.live.Pairwise fun a b => a.dbname ≠ b.dbname) ∧
      s'.step service (.destroyDB minidb [currentFileName]) = .error .abort := by
  refine ⟨⟨⟨∅⟩, [⟨minidb, none⟩]⟩, ⟨⟨∅⟩, [⟨minidb, none⟩, ⟨minidb, none⟩]⟩, ?_, rfl, rfl, by simp, rfl⟩
  exact Transition.Reaches.tail .refl trivial
    (show step service ⟨⟨∅⟩, []⟩ (ecallOpen ⟨false, none, none⟩) = .ok _ from rfl)

end Engines

end Elsm
