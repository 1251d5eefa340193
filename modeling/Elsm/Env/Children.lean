import Mathlib.Data.Finset.Sort
import Mathlib.Data.Finset.Union
import Elsm.Format.FileName
import Elsm.Version.Recover

/-!
# Listing a directory (`App/App.cpp`, `PosixEnv::GetChildren`, `DBImpl::Recover`)

The enclave lists a directory with two calls out of it.  The first one appends the names to a
vector of the host process and the second one fetches a name by its index.  Nothing ever
clears the vector, so what `GetChildren` returns is the names of this directory behind those of all
the directories listed before.  `Recover` relies on the listing to find out that a table is missing.
-/

namespace Elsm

open List

/-! ## Directories -/

def dot : Bytes := ascii ['.']

def dotDot : Bytes := ascii ['.', '.']

structure Directory where
  files : List Bytes
  nodup : files.Nodup
  noDots : dot ∉ files ∧ dotDot ∉ files
  noNul : ∀ name ∈ files, (0 : UInt8) ∉ name

namespace Directory

def entries (d : Directory) : List Bytes := dot :: dotDot :: d.files

def empty : Directory := ⟨[], .nil, by simp, by simp⟩

def create (d : Directory) (name : Bytes) : Directory :=
  if fresh : name ∉ d.entries ∧ (0 : UInt8) ∉ name then
    { files := name :: d.files
      nodup := d.nodup.cons fun member => fresh.1 (mem_cons_of_mem _ (mem_cons_of_mem _ member))
      noDots := by
        obtain ⟨notDot, notDotDot⟩ := not_or.mp (mt mem_cons.mpr fresh.1)
        have notDotDot : name ≠ dotDot := (not_or.mp (mt mem_cons.mpr notDotDot)).1
        simp [d.noDots, Ne.symm notDot, Ne.symm notDotDot]
      noNul := by simpa using ⟨fresh.2, d.noNul⟩ }
  else d

def delete (d : Directory) (name : Bytes) : Directory where
  files := d.files.erase name
  nodup := d.nodup.erase name
  noDots := ⟨fun member => d.noDots.1 (mem_of_mem_erase member), fun member => d.noDots.2 (mem_of_mem_erase member)⟩
  noNul other member := d.noNul other (mem_of_mem_erase member)

theorem entries_noNul (d : Directory) : ∀ name ∈ d.entries, (0 : UInt8) ∉ name := by
  intro name mem
  simp only [entries, mem_cons] at mem
  rcases mem with rfl | rfl | mem
  · decide
  · decide
  · exact d.noNul name mem

end Directory

/-- The order in which `readdir` gives the entries of a directory. -/
structure Readdir where
  order : List Bytes → List Bytes
  perm : ∀ names, (order names).Perm names

/-! ## The calls of the host -/

/-- A host process: the directories it sees and the vector `result`. -/
structure Host where
  dirs : Bytes → Option Directory
  result : List Bytes
  noNul : ∀ name ∈ result, (0 : UInt8) ∉ name

/-- How a process ends in the middle of a call. -/
inductive HostStop where
  /-- `readdir` on the null pointer of an `opendir` that failed. -/
  | nullDirectory
  /-- More bytes are written to a buffer than it has. -/
  | overflow
  /-- A string without a terminator is read. -/
  | overrun
  deriving DecidableEq

namespace Host

def push (h : Host) (names : List Bytes) (noNul : ∀ name ∈ names, (0 : UInt8) ∉ name) : Host where
  dirs := h.dirs
  result := h.result ++ names
  noNul name member := (mem_append.mp member).elim (h.noNul name) (noNul name)

def ocallGetchildren (h : Host) (fname : Bytes) (readdir : Readdir) : Except HostStop Host :=
  match h.dirs fname with
  | none => .error .nullDirectory
  | some d => .ok (h.push (readdir.order d.entries) fun name member =>
      d.entries_noNul name ((readdir.perm _).mem_iff.mp member))

/-- `ocall_checkchildren` on a name of the vector.  The parameter is declared with `[out,size=100]`:
the host writes to 100 zero bytes, which then are copied to `onefile`. -/
def ocallCheckchildren (name : Bytes) : Except HostStop Bytes :=
  if name.length ≤ 100 then .ok (name ++ replicate (100 - name.length) 0) else .error .overflow

/-- The string that starts at a buffer. -/
def cString (buffer : Bytes) : Except HostStop Bytes :=
  if 0 ∈ buffer then .ok (buffer.takeWhile (· ≠ 0)) else .error .overrun

def fetchAll : List Bytes → Except HostStop (List Bytes)
  | [] => .ok []
  | name :: rest => do
    let onefile ← ocallCheckchildren name
    let child ← cString onefile
    return child :: (← fetchAll rest)

def getChildren (h : Host) (dir : Bytes) (readdir : Readdir) : Except HostStop (List Bytes × Host) := do
  let h ← h.ocallGetchildren dir readdir
  return (← fetchAll h.result, h)

end Host

/-- What happens in a host process: files come and go, and the enclave lists directories. -/
inductive HostEvent where
  | createDir (dir : Bytes)
  | create (dir name : Bytes)
  | delete (dir name : Bytes)
  | getChildren (dir : Bytes) (readdir : Readdir)

def HostEvent.isListing : HostEvent → Bool
  | .getChildren _ _ => true
  | _ => false

variable {names : List Bytes}

namespace Host

def onDir (h : Host) (dir : Bytes) (change : Directory → Directory) : Host :=
  { h with dirs := Function.update h.dirs dir ((h.dirs dir).map change) }

def step (h : Host) : HostEvent → Except HostStop Host
  | .createDir dir => .ok { h with dirs := Function.update h.dirs dir (some ((h.dirs dir).getD .empty)) }
  | .create dir name => .ok (h.onDir dir (·.create name))
  | .delete dir name => .ok (h.onDir dir (·.delete name))
  | .getChildren dir readdir => (h.getChildren dir readdir).map (·.2)

/-! ## What a listing returns -/

theorem fetch_eq (name : Bytes) (noNul : 0 ∉ name) : (ocallCheckchildren name >>= cString) =
      if name.length < 100 then .ok name else .error (if name.length = 100 then .overrun else .overflow) := by
  rw [ocallCheckchildren]
  by_cases short : name.length < 100
  · have zeros : 0 ∈ replicate (100 - name.length) (0 : UInt8) := mem_replicate.mpr ⟨by omega, rfl⟩
    have stops : (replicate (100 - name.length) (0 : UInt8)).takeWhile (· ≠ 0) = [] := by
      obtain ⟨count, isSucc⟩ := Nat.exists_eq_succ_of_ne_zero (show 100 - name.length ≠ 0 by omega)
      rw [isSucc]
      rfl
    have all : ∀ c ∈ name, (c ≠ 0 : Bool) = true := by
      intro c mem
      simpa using fun isNul : c = 0 => noNul (isNul ▸ mem)
    rw [if_pos short.le, if_pos short]
    change cString _ = _
    rw [cString, if_pos (mem_append_right _ zeros), takeWhile_append_of_pos all, stops, append_nil]
  · rw [if_neg short]
    by_cases full : name.length = 100
    · rw [if_pos full.le, if_pos full]
      change cString _ = _
      rw [cString, if_neg (by simpa [full] using noNul)]
    · rw [if_neg (by omega), if_neg full]
      rfl

theorem fetchAll_eq_ok {names children : List Bytes} (noNul : ∀ name ∈ names, (0 : UInt8) ∉ name) :
    fetchAll names = .ok children ↔ (∀ name ∈ names, name.length < 100) ∧ children = names := by
  induction names generalizing children with
  | nil => simp [fetchAll, eq_comm]
  | cons name rest ih =>
    have unfolds : fetchAll (name :: rest) =
        (ocallCheckchildren name >>= cString) >>= fun child => fetchAll rest >>= fun more => pure (child :: more) := by
      rw [fetchAll, bind_assoc]
    have ih := fun children => @ih children (forall_mem_cons.mp noNul).2
    rw [unfolds, fetch_eq name (noNul name mem_cons_self)]
    by_cases short : name.length < 100
    · rw [if_pos short]
      change (fetchAll rest >>= fun more => pure (name :: more)) = _ ↔ _
      cases fetched : fetchAll rest with
      | error stop =>
        have long : ¬∀ other ∈ rest, other.length < 100 := fun all =>
          by cases fetched.symm.trans ((ih rest).mpr ⟨all, rfl⟩)
        simp [Bind.bind, Except.bind, long]
      | ok more =>
        obtain ⟨all, rfl⟩ := (ih more).mp fetched
        simp only [Bind.bind, Except.bind, Pure.pure, Except.pure, Except.ok.injEq, forall_mem_cons]
        exact ⟨fun eq => ⟨⟨short, all⟩, eq.symm⟩, fun both => both.2.symm⟩
    · rw [if_neg short]
      simp [Bind.bind, Except.bind, short]

theorem getChildren_eq_ok {h h' : Host} {dir : Bytes} {d : Directory} (isDir : h.dirs dir = some d)
    (readdir : Readdir) :
    h.getChildren dir readdir = .ok (names, h') ↔ (∀ name ∈ h.result ++ readdir.order d.entries, name.length < 100) ∧
        names = h.result ++ readdir.order d.entries ∧ h.ocallGetchildren dir readdir = .ok h' := by
  have pushes : ∃ pushed, h.ocallGetchildren dir readdir = .ok pushed ∧
      pushed.result = h.result ++ readdir.order d.entries := by
    simp only [ocallGetchildren, isDir]
    exact ⟨_, rfl, rfl⟩
  obtain ⟨pushed, goes, isResult⟩ := pushes
  have fetches := fun children => @fetchAll_eq_ok pushed.result children pushed.noNul
  rw [isResult] at fetches
  rw [getChildren, goes]
  change (fetchAll pushed.result >>= fun names => pure (names, pushed)) = _ ↔ _
  rw [isResult]
  cases fetched : fetchAll (h.result ++ readdir.order d.entries) with
  | error stop =>
    have long : ¬∀ name ∈ h.result ++ readdir.order d.entries, name.length < 100 := fun all =>
      by cases fetched.symm.trans ((fetches _).mpr ⟨all, rfl⟩)
    simp only [Bind.bind, Except.bind, reduceCtorEq, long, false_and]
  | ok children =>
    obtain ⟨all, rfl⟩ := (fetches children).mp fetched
    simp only [Bind.bind, Except.bind, Pure.pure, Except.pure, Except.ok.injEq, Prod.mk.injEq]
    exact ⟨fun ⟨eq, isHost⟩ => ⟨all, eq.symm, isHost⟩, fun ⟨_, eq, isHost⟩ => ⟨eq.symm, isHost⟩⟩

/-! ## Histories of a process -/

theorem step_result {h h' : Host} {ev : HostEvent} (goes : h.step ev = .ok h') :
    h'.result = [] ↔ h.result = [] ∧ ev.isListing = false := by
  cases ev with
  | createDir dir =>
    cases goes
    simp [HostEvent.isListing]
  | create | delete =>
    cases goes
    simp [HostEvent.isListing, onDir]
  | getChildren dir readdir =>
    cases isDir : h.dirs dir with
    | none => simp [step, getChildren, ocallGetchildren, isDir, Except.map, Bind.bind, Except.bind] at goes
    | some d =>
      simp only [step] at goes
      cases listed : h.getChildren dir readdir with
      | error stop => simp [listed, Except.map] at goes
      | ok answer =>
        obtain ⟨names, pushed⟩ := answer
        have eq : pushed = h' := by simpa [listed, Except.map] using goes
        have pushes := ((getChildren_eq_ok isDir readdir).mp listed).2.2
        simp only [ocallGetchildren, isDir, Except.ok.injEq] at pushes
        have notEmpty : readdir.order d.entries ≠ [] := by
          intro isEmpty
          have len := (readdir.perm d.entries).length_eq
          rw [isEmpty] at len
          cases len
        rw [← eq, ← pushes]
        simp [push, notEmpty, HostEvent.isListing]

theorem history_result {history : List HostEvent} {h h' : Host} (run : history.foldlM step h = .ok h') :
    h'.result = [] ↔ h.result = [] ∧ ∀ ev ∈ history, ev.isListing = false := by
  induction history generalizing h with
  | nil =>
    cases run
    simp
  | cons ev rest ih =>
    rw [foldlM_cons] at run
    cases goes : h.step ev with
    | error stop => simp [goes, Bind.bind, Except.bind] at run
    | ok next =>
      rw [goes] at run
      rw [ih run, step_result goes, forall_mem_cons, and_assoc]

end Host

/-! ## The check for missing files -/

/-- `VersionSet::AddLiveFiles` when one version is alive. -/
def Version.liveFiles (version : Version Bytes) : Finset Nat :=
  (Finset.range kNumLevels).biUnion fun level => ((version.files level).map (·.number)).toFinset

def eraseFound (expected : Finset Nat) (filenames : List Bytes) : Finset Nat :=
  filenames.foldl (fun expected name =>
    match parseFileName name with
    | some (number, _) => expected.erase number
    | none => expected) expected

def missingFiles (dbname : Bytes) (count number : Nat) : Status :=
  .corruption (toString count ++ " missing files; e.g.: " ++ toText (dbname ++ ascii ['/'] ++ tableFileName number))

/-- The logs that the MANIFEST does not say to be in tables, oldest first. -/
def logsToReplay (recovered : Recovered Bytes) (filenames : List Bytes) : List Nat :=
  let logs := filenames.filterMap fun name =>
    match parseFileName name with
    | some (number, .logFile) =>
      if recovered.logNumber ≤ number ∨ number = recovered.prevLogNumber then some number else none
    | _ => none
  logs.mergeSort (· ≤ ·)

/-- The part of `DBImpl::Recover` that goes over the names in the directory: the logs to replay, or
the status when a file is missing. -/
def checkFiles (dbname : Bytes) (recovered : Recovered Bytes) (filenames : List Bytes) : Except Status (List Nat) :=
  let expected := eraseFound recovered.version.liveFiles filenames
  match expected.sort (· ≤ ·) with
  | number :: _ => .error (missingFiles dbname expected.card number)
  | [] => .ok (logsToReplay recovered filenames)

theorem checkFiles_ok {dbname : Bytes} {recovered : Recovered Bytes}
    (found : eraseFound recovered.version.liveFiles names = ∅) :
    checkFiles dbname recovered names = .ok (logsToReplay recovered names) := by
  simp only [checkFiles, found, Finset.sort_empty]

/-- `DBImpl::Recover` up to the replay of the logs, with the records of the MANIFEST. -/
def Host.recover (h : Host) (dbname : Bytes) (readdir : Readdir) (records : List (VersionEdit Bytes)) :
    Except HostStop (Except Status (Recovered Bytes × List Nat)) :=
  match Elsm.recover records with
  | .error status => .ok (.error status)
  | .ok recovered => do
    let (filenames, _) ← h.getChildren dbname readdir
    return (checkFiles dbname recovered filenames).map fun logs => (recovered, logs)

theorem mem_eraseFound {expected : Finset Nat} {n : Nat} : n ∈ eraseFound expected names ↔
      n ∈ expected ∧ ∀ name ∈ names, ∀ type, parseFileName name ≠ some (n, type) := by
  induction names generalizing expected with
  | nil => simp [eraseFound]
  | cons name rest ih =>
    rw [eraseFound, foldl_cons, ← eraseFound, ih, forall_mem_cons]
    cases parsed : parseFileName name with
    | none => simp
    | some file =>
      obtain ⟨found, type⟩ := file
      simp only [Finset.mem_erase, ne_eq, Option.some.injEq, Prod.mk.injEq, not_and]
      constructor
      · rintro ⟨⟨differs, mem⟩, others⟩
        exact ⟨mem, fun _ eq => absurd eq.symm differs, others⟩
      · rintro ⟨mem, differs, others⟩
        exact ⟨⟨fun eq => differs type eq.symm rfl, mem⟩, others⟩

theorem checkFiles_missing {dbname : Bytes} {recovered : Recovered Bytes} {names : List Bytes} {n : Nat}
    (live : n ∈ recovered.version.liveFiles) (missing : ∀ name ∈ names, ∀ type, parseFileName name ≠ some (n, type)) :
    ∃ count first, checkFiles dbname recovered names = .error (missingFiles dbname count first) := by
  have remains := mem_eraseFound.mpr ⟨live, missing⟩
  simp only [checkFiles]
  split
  case h_1 first rest isSorted => exact ⟨_, _, rfl⟩
  case h_2 isEmpty =>
    have mem := (Finset.mem_sort (· ≤ ·)).mpr remains
    rw [isEmpty] at mem
    cases mem

namespace Host

/-- A process whose vector is empty lists a directory exactly, as long as the names leave room for
their terminators, and every later listing has the names of the earlier ones in it.  After an exact
listing `Recover` notices that a file is missing. -/
theorem getChildren_exact (host : Host) (fresh : host.result = []) (history : List HostEvent) (h : Host)
    (run : history.foldlM step host = .ok h) (dir : Bytes) (d : Directory) (isDir : h.dirs dir = some d)
    (readdir : Readdir) :
    ((∃ names h', h.getChildren dir readdir = .ok (names, h') ∧ names.Perm d.entries) ↔
      (∀ event ∈ history, event.isListing = false) ∧ ∀ name ∈ d.files, name.length < 100) ∧
    ((∀ event ∈ history, event.isListing = false) → (∀ name ∈ d.files, name.length < 100) →
      ∀ records recovered, Elsm.recover records = .ok recovered →
        (∃ number ∈ recovered.version.liveFiles, ∀ name ∈ d.entries, ∀ type, parseFileName name ≠ some (number, type)) →
        ∃ count first, h.recover dir readdir records = .ok (.error (missingFiles dir count first))) := by
  have isFirst : h.result = [] ↔ ∀ event ∈ history, event.isListing = false := by
    rw [history_result run, and_iff_right fresh]
  have isShort : (∀ name ∈ readdir.order d.entries, name.length < 100) ↔ ∀ name ∈ d.files, name.length < 100 := by
    simp only [(readdir.perm d.entries).mem_iff]
    simp only [Directory.entries, forall_mem_cons]
    exact ⟨fun all => all.2.2, fun all => ⟨by decide, by decide, all⟩⟩
  rw [← isFirst, ← isShort]
  have exact : h.result = [] → (∀ name ∈ readdir.order d.entries, name.length < 100) →
      ∃ h', h.getChildren dir readdir = .ok (readdir.order d.entries, h') := by
    intro empty short
    obtain ⟨h', goes⟩ : ∃ h', h.ocallGetchildren dir readdir = .ok h' := by
      simp only [ocallGetchildren, isDir]
      exact ⟨_, rfl⟩
    refine ⟨h', (getChildren_eq_ok isDir readdir).mpr ?_⟩
    rw [empty]
    exact ⟨short, rfl, goes⟩
  constructor
  · constructor
    · rintro ⟨names, h', listed, perm⟩
      obtain ⟨short, isNames, _⟩ := (getChildren_eq_ok isDir readdir).mp listed
      have length := perm.length_eq
      rw [isNames, length_append, (readdir.perm d.entries).length_eq] at length
      have empty : h.result = [] := length_eq_zero_iff.mp (by omega)
      exact ⟨empty, fun name member => short name (mem_append_right _ member)⟩
    · rintro ⟨empty, short⟩
      obtain ⟨h', listed⟩ := exact empty short
      exact ⟨_, h', listed, readdir.perm _⟩
  · rintro empty short records recovered recovers ⟨number, live, missing⟩
    obtain ⟨h', listed⟩ := exact empty short
    obtain ⟨count, first, reported⟩ := @checkFiles_missing dir _ _ _ live fun name member =>
      missing name ((readdir.perm _).mem_iff.mp member)
    refine ⟨count, first, ?_⟩
    rw [Host.recover, recovers]
    simp only [listed, Bind.bind, Except.bind, Pure.pure, Except.pure, reported, Except.map]

def sample (dir : Bytes) : Host where
  dirs := Function.update (fun _ => none) dir (some .empty)
  result := []
  noNul := by simp

def inOrder : Readdir := ⟨id, fun _ => .refl _⟩

def sampleRecords (number : Nat) : List (VersionEdit Bytes) :=
  [{ VersionEdit.empty with
      logNumber := some 3
      nextFileNumber := some 7
      lastSequence := some 1
      newFiles := [(0, ⟨number, 100, .make [97] 1 .value, .make [97] 1 .value, Merkle.zeroDigest⟩)] }]

/-- The first listing of a process, in a directory that has lost the table of its MANIFEST. -/
theorem getChildren_exact_first : ∃ h d recovered names h' count first,
    [HostEvent.create [100] (logFileName 3)].foldlM step (sample [100]) = .ok h ∧ h.dirs [100] = some d ∧
    h.getChildren [100] inOrder = .ok (names, h') ∧ names.Perm d.entries ∧
    Elsm.recover (sampleRecords 5) = .ok recovered ∧ 5 ∈ recovered.version.liveFiles ∧
    h.recover [100] inOrder (sampleRecords 5) = .ok (.error (missingFiles [100] count first)) := by
  let h := (sample [100]).onDir [100] (·.create (logFileName 3))
  have run : [HostEvent.create [100] (logFileName 3)].foldlM step (sample [100]) = .ok h := rfl
  let d := Directory.empty.create (logFileName 3)
  have isDir : h.dirs [100] = some d := rfl
  have isFile : d.files = [logFileName 3] := by decide +kernel
  have noListing : ∀ event ∈ [HostEvent.create [100] (logFileName 3)], event.isListing = false := by
    simp [HostEvent.isListing]
  have short : ∀ name ∈ d.files, name.length < 100 := by
    rw [isFile]
    decide +kernel
  obtain ⟨isExact, notices⟩ := getChildren_exact (sample [100]) rfl _ h run [100] d isDir inOrder
  obtain ⟨names, h', listed, perm⟩ := isExact.mpr ⟨noListing, short⟩
  obtain ⟨recovered, recovers, live⟩ : ∃ recovered, Elsm.recover (sampleRecords 5) = .ok recovered ∧
      5 ∈ recovered.version.liveFiles := ⟨_, rfl, by decide +kernel⟩
  obtain ⟨count, first, reported⟩ := notices noListing short _ recovered recovers ⟨5, live, by
    have unnamed : ∀ name ∈ dot :: dotDot :: [logFileName 3], (parseFileName name).map (·.1) ≠ some 5 := by
      decide +kernel
    intro name member type parsed
    rw [Directory.entries, isFile] at member
    exact unnamed name member (by rw [parsed]; rfl)⟩
  exact ⟨h, d, recovered, names, h', count, first, run, isDir, listed, perm, recovers, live, reported⟩

/-- A table is listed, disappears and is listed again.  `Recover` then finds nothing missing. -/
theorem getChildren_stale : ∃ h d recovered names h' logs,
    [HostEvent.create [100] (tableFileName 5), .getChildren [100] inOrder,
      .delete [100] (tableFileName 5)].foldlM step (sample [100]) = .ok h ∧ h.dirs [100] = some d ∧
    d.files = [] ∧ h.getChildren [100] inOrder = .ok (names, h') ∧ tableFileName 5 ∈ names ∧
    Elsm.recover (sampleRecords 5) = .ok recovered ∧ 5 ∈ recovered.version.liveFiles ∧
    h.recover [100] inOrder (sampleRecords 5) = .ok (.ok (recovered, logs)) := by
  refine ⟨_, _, _, _, _, _, rfl, rfl, ?_, rfl, ?_, rfl, ?_, congrArg _ (congrArg _ (checkFiles_ok ?_))⟩
  · decide +kernel
  · decide +kernel
  · decide +kernel
  · decide +kernel

end Host

end Elsm
