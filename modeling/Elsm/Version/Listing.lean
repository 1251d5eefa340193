import Elsm.Version.Commit

/-!
# The versions that a MANIFEST stands for

`Lists` relates the edits in a MANIFEST to a version: the one builder of `Recover`, fed with all of them, holds its
files.  `Yields` is about a directory in which a crash may have cut files off: `Recover` finds one of some
versions in it.  A MANIFEST that ends within its last edit yields the version before that edit or the one
after it.
-/

namespace Elsm

open List
open CrashFs
open Merkle (Digest)

/-! ## The version that edits stand for -/

structure Version.Storable (version : Version Bytes) : Prop where
  files : ∀ level, ∀ f ∈ version.files level, f.Storable
  inOrder : ∀ level, InOrder (version.files level)
  chain : ∀ level, 0 < level → (version.files level).IsChain fun f g => f.largest < g.smallest
  depth : ∀ level, kNumLevels ≤ level → version.files level = []
  numbers : ∀ level, ∀ f ∈ version.files level, ∀ g ∈ version.files level, f.number = g.number → f = g

/-- The edit brings no number back to a level at which it was before. -/
structure VersionEdit.NewTo (edit : VersionEdit Bytes) (edits : List (VersionEdit Bytes)) : Prop where
  distinct : DistinctNumbers edit.newFiles
  fresh : ∀ level f, (level, f) ∈ edit.newFiles → ∀ g, (level, g) ∈ newFilesOf edits → g.number ≠ f.number

/-- One builder that is fed all of the edits holds the files of the version. -/
structure Lists (edits : List (VersionEdit Bytes)) (version : Version Bytes) : Prop where
  storable : ∀ edit ∈ edits, edit.Storable
  replayed : ∀ rh, Replayed rh (replay rh (edits.map VersionEdit.ordered)) version.files

def Numbered (edits : List (VersionEdit Bytes)) : Prop :=
  ∃ front edit logNumber prevLogNumber next last, edits = front ++ [edit] ∧ edit.logNumber = some logNumber ∧
    edit.prevLogNumber = some prevLogNumber ∧ edit.nextFileNumber = some next ∧ edit.lastSequence = some last

variable {version version' : Version Bytes} {edit : VersionEdit Bytes} {edits : List (VersionEdit Bytes)}

theorem replay_number {rh : Nat → Nat → Digest} {l : Nat} {g : FileMetaData Bytes}
    (added : g ∈ (replay rh (edits.map VersionEdit.ordered) l).addedFiles) :
    ∃ f, (l, f) ∈ newFilesOf edits ∧ f.number = g.number := by
  rw [replay, foldl_apply_addedFiles] at added
  change g ∈ (addedAt _ l).foldl _ [] at added
  rw [mem_foldl_insertFile _ List.Pairwise.nil] at added
  obtain old | ⟨-, pre, after, split, -⟩ := added
  · cases old
  have inAll : g ∈ addedAt (newFilesOf ((edits.map VersionEdit.ordered).map (VersionEdit.decoded rh))) l :=
    split ▸ by simp
  obtain ⟨edit, isEdit, new⟩ := mem_flatMap.mp (mem_addedAt.mp inAll)
  rw [map_map, mem_map] at isEdit
  obtain ⟨raw, isRaw, rfl⟩ := isEdit
  obtain ⟨f, isFile, rfl⟩ := VersionEdit.mem_decoded.mp new
  exact ⟨f, mem_flatMap.mpr ⟨raw, isRaw, isFile⟩, rfl⟩

theorem Lists.listed (lists : Lists edits version) {l : Nat} {f : FileMetaData Bytes} (isFile : f ∈ version.files l) :
    ∃ g, (l, g) ∈ newFilesOf edits ∧ g.number = f.number := by
  have kept := ((lists.replayed fun _ _ => f.rh).kept l (f.relabel (fun _ _ => f.rh) l)).mpr ⟨f, isFile, rfl⟩
  exact replay_number kept.1

theorem Lists.add
    (lists : Lists edits version) (sound : version.Storable) (storable : edit.Storable) (isNew : edit.NewTo edits)
    (applied : version.applyEdit edit = some version') : Lists (edits ++ [edit]) version' := by
  refine ⟨SortedList.forall_mem_concat lists.storable storable, fun rh => ?_⟩
  rw [map_append, map_cons, map_nil, replay_append]
  have dist : DistinctNumbers edit.ordered.newFiles := isNew.distinct
  apply (lists.replayed rh).apply dist
  · intro l f new h added eq
    obtain ⟨g, isListed, n⟩ := replay_number added
    exact isNew.fresh l f new g isListed (n.trans eq)
  intro l f
  rw [VersionEdit.ordered_deletes]
  exact mem_applyEdit_iff sound.depth (fun _ _ new => (storable.newFiles _ new).1) isNew.distinct applied

theorem Version.Storable.apply {edits : List (VersionEdit Bytes)} {version version' : Version Bytes}
    {edit : VersionEdit Bytes} (sound : version.Storable) (lists : Lists edits version) (storable : edit.Storable)
    (isNew : edit.NewTo edits) (applied : version.applyEdit edit = some version') : version'.Storable := by
  have mem : ∀ l f, f ∈ version'.files l ↔ _ := fun l f =>
    mem_applyEdit_iff sound.depth (fun _ _ new => (storable.newFiles _ new).1) isNew.distinct applied
  have apart : ∀ l f, (l, f) ∈ edit.newFiles → ∀ b ∈ version.files l, f.number ≠ b.number := by
    intro l f new b isFile eq
    obtain ⟨g, isListed, n⟩ := lists.listed isFile
    exact isNew.fresh l f new g isListed (n.trans eq.symm)
  have newAlone : ∀ l f g, (l, f) ∈ edit.newFiles → (l, g) ∈ edit.newFiles → f.number = g.number → f = g := by
    intro l f g newF newG eq
    obtain equal | apart | apart := SortedList.rel_or_rel isNew.distinct newF newG
    · exact (Prod.mk.inj equal).2
    · exact absurd eq (apart rfl)
    · exact absurd eq.symm (apart rfl)
  refine ⟨?_, applyEdit_inOrder isNew.distinct applied sound.inOrder apart, ?_, (saveTo_some applied).2.1, ?_⟩
  · intro l f isFile
    obtain ⟨old, -⟩ | new := (mem l f).mp isFile
    · exact sound.files l f old
    · exact (storable.newFiles _ new).2
  · exact fun l pos => saveTo_isChain applied pos
  · intro l f isF g isG eq
    obtain ⟨oldF, -⟩ | newF := (mem l f).mp isF
    · obtain ⟨oldG, -⟩ | newG := (mem l g).mp isG
      · exact sound.numbers l f oldF g oldG eq
      · exact absurd eq.symm (apart l g newG f oldF)
    obtain ⟨oldG, -⟩ | newG := (mem l g).mp isG
    · exact absurd eq (apart l f newF g oldG)
    · exact newAlone l f g newF newG eq

theorem writeSnapshot_storable (sound : version.Storable)
    {compactPointer : Nat → Option (InternalKey Bytes)} (pointers : ∀ l, ∀ key ∈ compactPointer l, key.Storable) :
    (writeSnapshot version compactPointer).Storable where
  comparator := .inr rfl
  logNumber := nofun
  prevLogNumber := nofun
  nextFileNumber := nofun
  lastSequence := nofun
  compactPointers := by
    intro e mem
    obtain ⟨l, isLevel, found⟩ := mem_filterMap.mp mem
    obtain ⟨key, isKey, rfl⟩ := Option.map_eq_some_iff.mp found
    exact ⟨mem_range.mp isLevel, pointers l key isKey⟩
  deletedFiles := nofun
  newFiles := by
    rintro ⟨l, f⟩ mem
    obtain ⟨isLevel, isFile⟩ := mem_writeSnapshot.mp mem
    exact ⟨isLevel, sound.files l f isFile⟩

theorem lists_writeSnapshot {version : Version Bytes} (sound : version.Storable)
    {compactPointer : Nat → Option (InternalKey Bytes)} (pointers : ∀ l, ∀ key ∈ compactPointer l, key.Storable) :
    Lists [writeSnapshot version compactPointer] version := by
  refine ⟨fun edit isEdit => mem_singleton.mp isEdit ▸ writeSnapshot_storable sound pointers, fun rh => ?_⟩
  have dist : DistinctNumbers (writeSnapshot version compactPointer).ordered.newFiles := by
    apply writeSnapshot_distinct
    intro l
    refine List.Pairwise.imp_of_mem ?_ (sound.inOrder l)
    intro f g isF isG pre eq
    exact absurd (congrArg FileMetaData.sortKey (sound.numbers l f isF g isG eq)) pre.ne
  apply (Replayed.init rh).apply dist
  · intro l f _ h added
    cases added
  intro l f
  change _ ↔ _ ∨ (l, f) ∈ (writeSnapshot version compactPointer).newFiles
  rw [mem_writeSnapshot]
  constructor
  · intro isFile
    refine .inr ⟨Nat.lt_of_not_le fun above => ?_, isFile⟩
    rw [sound.depth l above] at isFile
    cases isFile
  · rintro (⟨old, -⟩ | ⟨-, isFile⟩)
    · cases old
    · exact isFile

theorem Lists.recover (lists : Lists edits version)
    (sound : version.Storable) (numbered : Numbered edits) (rh : Nat → Nat → Digest) :
    ∃ found, Elsm.recover (edits.map fun edit => edit.ordered.decoded rh) = .ok found ∧
      found.version = version.relabel rh := by
  obtain ⟨front, edit, logNumber, prevLogNumber, next, last, rfl, hasLog, hasPrev, hasNext, hasLast⟩ := numbered
  have replayed := lists.replayed rh
  rw [map_append, map_cons, map_nil] at replayed
  have comparators : ∀ other ∈ front.map VersionEdit.ordered ++ [edit.ordered],
      other.comparator = none ∨ other.comparator = some bytewiseComparatorName := by
    intro other mem
    rw [← map_singleton (f := VersionEdit.ordered), ← map_append] at mem
    obtain ⟨raw, isEdit, rfl⟩ := mem_map.mp mem
    exact (lists.storable raw isEdit).comparator
  obtain ⟨pointers, found⟩ :=
    recover_replayed comparators hasLog hasPrev hasNext hasLast replayed sound.inOrder sound.chain
    sound.depth
  have eq : (front ++ [edit]).map (fun edit => edit.ordered.decoded rh) =
      (front.map VersionEdit.ordered ++ [edit.ordered]).map (VersionEdit.decoded rh) := by simp
  exact ⟨_, eq ▸ found, rfl⟩

/-! ## What `Recover` finds in a directory -/

/-- Whatever a crash leaves of the directory, `Recover` finds one of the versions. -/
def Yields (crc : Log.Crc) (dir : DbDirectory) (versions : Version Bytes → Prop) : Prop :=
  ∀ rh image, Image dir image → ∃ found version, recoverFiles crc rh image = .ok found ∧
    found.version = version.relabel rh ∧ versions version

variable {crc : Log.Crc}

theorem Yields.mono {dir : DbDirectory} {versions versions' : Version Bytes → Prop}
    (yields : Yields crc dir versions) (weaker : ∀ version, versions version → versions' version) :
    Yields crc dir versions' := by
  intro rh image isImage
  obtain ⟨found, version, recovers, eq, isOne⟩ := yields rh image isImage
  exact ⟨found, version, recovers, eq, weaker version isOne⟩

def Names (dir : DbDirectory) (number : Nat) : Prop :=
  ∃ file, dir currentFileName = some file ∧ file.bytes = descriptorFileName number ++ ascii ['\n'] ∧
    file.bytes.length ≤ file.flushed

theorem recoverFiles_named {rh : Nat → Nat → Digest} {files : Bytes → Option Bytes} {num : Nat}
    (current : files currentFileName = some (descriptorFileName num ++ ascii ['\n'])) :
    recoverFiles crc rh files = match files (descriptorFileName num) with
      | none => .error (.ioError (toText (descriptorFileName num)))
      | some bytes => recoverManifest crc rh bytes := by
  have newline : (descriptorFileName num ++ ascii ['\n']).getLast? = some 10 := getLast?_concat
  have isName : (descriptorFileName num ++ ascii ['\n']).dropLast = descriptorFileName num := dropLast_concat
  rw [recoverFiles, current]
  cases isFile : files (descriptorFileName num) <;> simp [newline, isName, isFile]

theorem Names.yields {dir : DbDirectory} {num : Nat} (names : Names dir num)
    {versions : Version Bytes → Prop} {file : File UInt8} (present : dir (descriptorFileName num) = some file)
    (reads : ∀ rh size, file.flushed ≤ size → ∃ found version,
      recoverManifest crc rh (file.bytes.take size) = .ok found ∧
      found.version = version.relabel rh ∧ versions version) : Yields crc dir versions := by
  intro rh image isImage
  obtain ⟨cur, isCurrent, contents, synced⟩ := names
  have inImage := isImage.whole isCurrent synced
  have manifest := isImage (descriptorFileName num)
  rw [present] at manifest
  obtain ⟨size, le, isManifest⟩ := manifest
  obtain ⟨found, version, recovers, eq, isOne⟩ := reads rh size le
  refine ⟨found, version, ?_, eq, isOne⟩
  rw [recoverFiles_named (contents ▸ inImage), isManifest]
  exact recovers

section Manifest

variable {crc : Log.Crc} {bytes : Bytes} {offset : Nat} {edits : List (VersionEdit Bytes)} {version : Version Bytes}

theorem recoverManifest_whole {w : Log.Writer Bytes} (holds : Log.Holds crc w (edits.map VersionEdit.encodeTo))
    (lists : Lists edits version) (sound : version.Storable) (numbered : Numbered edits) (rh : Nat → Nat → Digest) :
    ∃ found, recoverManifest crc rh w.dest = .ok found ∧ found.version = version.relabel rh := by
  obtain ⟨fragments, framed, assembled, noReports⟩ := holds.read
  obtain ⟨found, recovers, eq⟩ := lists.recover sound numbered rh
  exact ⟨found, (recoverManifest_encoded framed noReports assembled lists.storable).trans recovers, eq⟩

theorem recoverManifest_torn (holds : Log.Holds crc ⟨bytes, offset⟩ (edits.map VersionEdit.encodeTo))
    (lists : Lists edits version) (sound : version.Storable) (numbered : Numbered edits)
    (lists' : Lists (edits ++ [edit]) version')
    (sound' : version'.Storable) (numbered' : Numbered (edits ++ [edit])) (rh : Nat → Nat → Digest) {size : Nat}
    (pre : bytes.length ≤ size) :
    ∃ found after, recoverManifest crc rh
        ((Log.addRecord Log.plainFile crc edit.encodeTo ⟨bytes, offset⟩).2.dest.take size) = .ok found ∧
      found.version = after.relabel rh ∧ (after = version ∨ after = version') := by
  obtain ⟨fragments, framed, assembled, noReports⟩ := holds.torn edit.encodeTo pre
  cases assembled with
  | inl old =>
    obtain ⟨found, recovers, eq⟩ := lists.recover sound numbered rh
    exact ⟨found, version, (recoverManifest_encoded framed noReports old lists.storable).trans recovers, eq, .inl rfl⟩
  | inr new =>
    have assembled : Log.assemble none fragments = (edits ++ [edit]).map VersionEdit.encodeTo := by
      rw [new, map_append, map_singleton]
    obtain ⟨found, recovers, eq⟩ := lists'.recover sound' numbered' rh
    exact ⟨found, version', (recoverManifest_encoded framed noReports assembled lists'.storable).trans recovers,
      eq, .inr rfl⟩

end Manifest

end Elsm
