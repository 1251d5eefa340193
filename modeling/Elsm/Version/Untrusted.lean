import Elsm.Lib.Transition
import Elsm.Log.Records
import Elsm.Version.Manifest

/-!
# What a MANIFEST from the host can do

`recoverFiles_robust_iff` says for which contents of CURRENT and the MANIFEST `Recover` ends with a
status or with a sound version: the edits that can be decoded have to list, for every level, keys
that can be compared and files whose ranges are in order.
-/

namespace Elsm

open List
open Merkle (Digest)

/-! ## The edits in a MANIFEST -/

section Edits

variable (crc : Log.Crc) (rh : Nat → Nat → Digest)

/-- The edits before the first defect that `Recover` notices while it reads, and that defect. -/
def editsLoop : Nat → Log.Reader → List (VersionEdit Bytes) × Option Status
  | 0, _ => ([], none)
  | bound + 1, r =>
    match r.readRecord crc true with
    | (found, r) =>
      match r.reports, found with
      | report :: _, _ => ([], some (.corruption report.2))
      | [], none => ([], none)
      | [], some record =>
        match VersionEdit.decodeFrom rh record with
        | .error status => ([], some status)
        | .ok edit =>
          match edit.mismatch with
          | some status => ([], some status)
          | none => (edit :: (editsLoop bound r).1, (editsLoop bound r).2)

def manifestEdits (bytes : Bytes) : List (VersionEdit Bytes) × Option Status :=
  editsLoop crc rh (bytes.length + 1) (.start bytes)

variable {crc rh}

def recoverEdits (found : List (VersionEdit Bytes) × Option Status) : Except Status (Recovered Bytes) :=
  found.1.foldlM RecoverState.recordChecked .init >>= fun state =>
    match found.2 with
    | some status => .error status
    | none => state.install

theorem manifestLoop_eq (fuel : Nat) (r : Log.Reader) (state : RecoverState Bytes) :
    (manifestLoop crc rh fuel r state >>= RecoverState.install) =
      ((editsLoop crc rh fuel r).1.foldlM RecoverState.recordChecked state >>= fun state =>
        match (editsLoop crc rh fuel r).2 with
        | some status => .error status
        | none => state.install) := by
  induction fuel generalizing r state with
  | zero => rfl
  | succ fuel ih =>
    rw [manifestLoop, editsLoop]
    generalize r.readRecord crc true = answer
    obtain ⟨found, r⟩ := answer
    simp only
    cases r.reports with
    | cons report reports => rfl
    | nil =>
      cases found with
      | none => rfl
      | some rcd =>
        simp only
        cases VersionEdit.decodeFrom rh rcd with
        | error status => rfl
        | ok edit =>
          simp only
          cases edit.mismatch with
          | some status => rfl
          | none =>
            simp only [foldlM_cons]
            cases state.recordChecked edit with
            | error status => rfl
            | ok state => exact ih r state

theorem recoverManifest_eq (bytes : Bytes) : recoverManifest crc rh bytes =
    recoverEdits (manifestEdits crc rh bytes) := by
  have whole := @manifestLoop_eq crc rh (bytes.length + 1) (.start bytes) .init
  rw [recoverEdits, manifestEdits, ← whole, recoverManifest]
  cases manifestLoop crc rh (bytes.length + 1) (.start bytes) .init with
  | error | ok => rfl

def editsOf (rh : Nat → Nat → Digest) : List Bytes → List (VersionEdit Bytes) × Option Status
  | [] => ([], none)
  | record :: rest =>
    match VersionEdit.decodeFrom rh record with
    | .error status => ([], some status)
    | .ok edit =>
      match edit.mismatch with
      | some status => ([], some status)
      | none => (edit :: (editsOf rh rest).1, (editsOf rh rest).2)

theorem editsLoop_reads {fragments : List Log.Fragment} {r : Log.Reader} (answers : Log.Reads crc true r fragments [])
    (clean : r.reports = []) (noReports : Log.reported none fragments = []) {fuel : Nat}
    (le : (Log.assemble none fragments).length < fuel) :
    editsLoop crc rh fuel r = editsOf rh (Log.assemble none fragments) := by
  induction fuel generalizing r fragments with
  | zero => exact absurd le (Nat.not_lt_zero _)
  | succ fuel ih =>
    have gives := answers.gives
    rw [editsLoop]
    generalize r.readRecord crc true = answer at gives
    obtain ⟨found, r'⟩ := answer
    simp only [Log.Gives, Log.assembleAll, flatMap_nil, append_nil, forall_const, clean, noReports] at gives
    cases found with
    | none =>
      simp only [gives.2, gives.1]
      rfl
    | some rcd =>
      obtain ⟨others, -, answers', isRecord, rfl, reports⟩ := gives
      rw [append_eq_nil_iff] at reports
      rw [flatMap_nil, append_nil] at isRecord
      rw [isRecord, length_cons] at le
      have later := ih answers' reports.1 reports.2 (Nat.lt_of_succ_lt_succ le)
      rw [isRecord, editsOf, ← later]
      simp only [reports.1]

theorem manifestEdits_framed {whole : Bool} {bytes : Bytes} {fragments : List Log.Fragment}
    (framed : Log.Framed crc whole 0 bytes fragments) (noReports : Log.reported none fragments = []) :
    manifestEdits crc rh bytes = editsOf rh (Log.assemble none fragments) := by
  have len := (Log.Reader.readAll_yields crc true bytes).2
  rw [(Log.readAll_framed framed true).1] at len
  exact editsLoop_reads (framed.atEnd.reads (Log.start_at bytes) true) rfl noReports (Nat.lt_succ_of_le len)

theorem decodeFrom_ne_abort {r : Bytes} {status : Status}
    (fails : VersionEdit.decodeFrom rh r = .error status) : status ≠ .abort := by
  cases decoded : EditRecord.decodeFrom .new r with
  | ok record =>
    rw [VersionEdit.decodeFrom, decoded] at fails
    cases fails
  | error status' =>
    rw [VersionEdit.decodeFrom, decoded] at fails
    cases fails
    rw [EditRecord.decodeFrom] at decoded
    split at decoded
    case h_1 => simp [← Except.error.inj decoded]
    case h_2 =>
      split at decoded
      case isTrue => cases decoded
      case isFalse => simp [← Except.error.inj decoded]

theorem editsLoop_defect {fuel : Nat} {r : Log.Reader} {status : Status}
    (defect : (editsLoop crc rh fuel r).2 = some status) : status ≠ .abort := by
  induction fuel generalizing r with
  | zero => cases defect
  | succ fuel ih =>
    rw [editsLoop] at defect
    generalize r.readRecord crc true = answer at defect
    obtain ⟨found, r⟩ := answer
    simp only at defect
    cases reports : r.reports with
    | cons report others =>
      simp only [reports, Option.some.injEq] at defect
      simp [← defect]
    | nil =>
      cases found with
      | none => simp [reports] at defect
      | some rcd =>
        simp only [reports] at defect
        cases decoded : VersionEdit.decodeFrom rh rcd with
        | error status' =>
          simp only [decoded, Option.some.injEq] at defect
          exact defect ▸ decodeFrom_ne_abort decoded
        | ok edit =>
          simp only [decoded] at defect
          cases mismatched : edit.mismatch with
          | none =>
            simp only [mismatched] at defect
            exact ih defect
          | some status' =>
            simp only [mismatched, Option.some.injEq] at defect
            subst defect
            rw [VersionEdit.mismatch] at mismatched
            split at mismatched
            · split at mismatched <;> cases mismatched
              simp
            · cases mismatched

end Edits

/-! ## The files that edits list -/

/-- The file is listed at the level: it was added there, as the first one with its smallest key and
number, and its number is not deleted. -/
def Listed (edits : List (VersionEdit Bytes)) (level : Nat) (f : FileMetaData Bytes) : Prop :=
  (∃ before after, addedAt (newFilesOf edits) level = before ++ f :: after ∧ ∀ g ∈ before, g.sortKey ≠ f.sortKey) ∧
    ¬FinallyDeleted edits level f.number

structure FileMetaData.Formed (f : FileMetaData Bytes) : Prop where
  smallest : f.smallest.Formed
  largest : f.largest.Formed
  ordered : f.smallest ≤ f.largest

/-- A level at which more than one file is added has keys that can be compared. -/
def Comparable (entries : List (Nat × FileMetaData Bytes)) : Prop :=
  ∀ level, 2 ≤ (addedAt entries level).length → ∀ f ∈ addedAt entries level, f.smallest.Formed

/-- The assertions hold while these edits are applied. -/
structure Applicable (edits : List (VersionEdit Bytes)) : Prop where
  pointers : ∀ edit ∈ edits, ∀ entry ∈ edit.compactPointers, entry.2.NonEmpty
  comparable : Comparable (newFilesOf edits)

/-- The edits of a MANIFEST with which `Recover` ends well: those before a defect can be applied, and
where there is none and the numbers are there, the files that are installed are in order. -/
structure Benign (edits : List (VersionEdit Bytes)) (defect : Option Status) : Prop extends Applicable edits where
  listed : defect = none → (∃ edit ∈ edits, edit.nextFileNumber.isSome) → (∃ edit ∈ edits, edit.logNumber.isSome) →
    (∃ edit ∈ edits, edit.lastSequence.isSome) → ∀ level < kNumLevels, ∀ f, Listed edits level f → f.Formed ∧
      (0 < level → ∀ g, Listed edits level g → f.sortKey < g.sortKey → f.largest < g.smallest)

/-! ## The assertions while edits are applied -/

section Apply

theorem Comparable.of_append {first snd : List (Nat × FileMetaData Bytes)}
    (whole : Comparable (first ++ snd)) : Comparable first := by
  intro l several f mem
  have all := whole l
  rw [addedAt_append, length_append] at all
  exact all (by omega) f (mem_append_left _ mem)

/-- What the set of a level holds of the files that were added to it.  A file that was dropped
because of its sort key has been compared. -/
structure SetOf (adds added : List (FileMetaData Bytes)) : Prop where
  subset : ∀ f ∈ added, f ∈ adds
  nonempty : adds ≠ [] → added ≠ []
  few : adds.length ≤ 1 → added = adds

variable {adds added : List (FileMetaData Bytes)}

theorem SetOf.insert (set : SetOf adds added) (f : FileMetaData Bytes) :
    SetOf (adds ++ [f]) (insertFile f added) where
  subset g member := by
    cases mem_of_mem_insertFile member with
    | inl eq => simp [eq]
    | inr old => simp [set.subset g old]
  nonempty _ := by
    cases added with
    | nil => simp [insertFile]
    | cons head rest =>
      rw [insertFile]
      split
      · simp
      · split <;> simp
  few short := by
    have none : adds = [] := by
      rw [length_append, length_singleton] at short
      exact eq_nil_of_length_eq_zero (by omega)
    subst none
    rw [set.few (by simp)]
    rfl

/-- The comparison that inserts the file passes exactly when all that was added can be compared. -/
theorem SetOf.comparable (set : SetOf adds added)
    (earlier : 2 ≤ adds.length → ∀ g ∈ adds, g.smallest.Formed) (f : FileMetaData Bytes) :
    (added ≠ [] ∧ ∃ g ∈ f :: added, ¬g.smallest.Formed) ↔
      ¬(2 ≤ (adds ++ [f]).length → ∀ g ∈ adds ++ [f], g.smallest.Formed) := by
  rw [Classical.not_imp, length_append, length_singleton]
  cases adds with
  | nil =>
    rw [set.few (by simp)]
    simp
  | cons head rest =>
    have present := set.nonempty (by simp)
    simp only [ne_eq, present, not_false_eq_true, true_and, length_cons, cons_append, not_forall]
    constructor
    · rintro ⟨g, mem, unformed⟩
      refine ⟨by omega, g, ?_, unformed⟩
      cases mem_cons.mp mem with
      | inl new => simp [new]
      | inr old => exact mem_append_left [f] (set.subset g old)
    · rintro ⟨-, g, mem, unformed⟩
      cases mem_append.mp (show g ∈ (head :: rest) ++ [f] from mem) with
      | inr new => exact ⟨g, by simp [mem_singleton.mp new], unformed⟩
      | inl old =>
        by_cases several : 2 ≤ (head :: rest).length
        · exact absurd (earlier several g old) unformed
        · exact ⟨g, mem_cons_of_mem _ (set.few (by omega) ▸ old), unformed⟩

/-- The builder's sets after these files were added. -/
def BuilderOf (entries : List (Nat × FileMetaData Bytes)) (builder : Builder Bytes) : Prop :=
  ∀ level, SetOf (addedAt entries level) (builder level).addedFiles

variable {b : Builder Bytes} {es : List (Nat × FileMetaData Bytes)}

theorem BuilderOf.add (built : BuilderOf es b) (e : Nat × FileMetaData Bytes) :
    BuilderOf (es ++ [e]) (b.add e) := by
  intro l
  rw [addedAt_append]
  by_cases same : l = e.1
  · subst same
    simpa [Builder.add, addedAt] using (built e.1).insert e.2
  · have other : ¬e.1 = l := fun equal => same equal.symm
    simpa [Builder.add, addedAt, same, other] using built l

theorem addChecked_eq (comparable : Comparable es) (built : BuilderOf es b) (e : Nat × FileMetaData Bytes) :
    (Comparable (es ++ [e]) ∧ b.addChecked e = .ok (b.add e)) ∨
      (¬Comparable (es ++ [e]) ∧ b.addChecked e = .error .abort) := by
  obtain ⟨l, f⟩ := e
  have here := (built l).comparable (comparable l) f
  have atLevel : addedAt (es ++ [(l, f)]) l = addedAt es l ++ [f] := by
    simp [addedAt]
  rw [← atLevel] at here
  simp only [Builder.addChecked]
  by_cases fails : (b l).addedFiles ≠ [] ∧ ∃ g ∈ f :: (b l).addedFiles, ¬g.smallest.Formed
  · rw [if_pos fails]
    exact .inr ⟨fun whole => here.mp fails (whole l), rfl⟩
  rw [if_neg fails]
  refine .inl ⟨fun i => ?_, rfl⟩
  by_cases same : i = l
  · subst same
    exact not_not.mp fun bad => fails (here.mpr bad)
  have other : ¬l = i := fun equal => same equal.symm
  have unchanged : addedAt (es ++ [(l, f)]) i = addedAt es i := by
    simp [addedAt, other]
  rw [unchanged]
  exact comparable i

theorem foldlM_addChecked (es : List (Nat × FileMetaData Bytes)) {seen : List (Nat × FileMetaData Bytes)}
    (comparable : Comparable seen) (built : BuilderOf seen b) :
    (Comparable (seen ++ es) ∧ es.foldlM Builder.addChecked b = .ok (es.foldl Builder.add b) ∧
        BuilderOf (seen ++ es) (es.foldl Builder.add b)) ∨
      (¬Comparable (seen ++ es) ∧ es.foldlM Builder.addChecked b = .error .abort) := by
  refine Transition.foldlM_checked Comparable BuilderOf ?_ ?_ es comparable built
  · intro seen e rest whole
    rw [← singleton_append, ← append_assoc] at whole
    exact whole.of_append
  intro seen b e comparable built
  cases addChecked_eq comparable built e with
  | inl passes => exact .inl ⟨passes.1, passes.2, built.add e⟩
  | inr fails => exact .inr fails

theorem newFilesOf_append (first snd : List (VersionEdit Bytes)) :
    newFilesOf (first ++ snd) = newFilesOf first ++ newFilesOf snd :=
  flatMap_append

theorem recordChecked_eq {seen : List (VersionEdit Bytes)} {state : RecoverState Bytes} (applicable : Applicable seen)
    (built : BuilderOf (newFilesOf seen) state.builder) (edit : VersionEdit Bytes) :
    (Applicable (seen ++ [edit]) ∧ state.recordChecked edit = .ok (state.record edit) ∧
        BuilderOf (newFilesOf (seen ++ [edit])) (state.record edit).builder) ∨
      (¬Applicable (seen ++ [edit]) ∧ state.recordChecked edit = .error .abort) := by
  have isNew : newFilesOf (seen ++ [edit]) = newFilesOf seen ++ edit.newFiles := by
    simp [newFilesOf]
  have deleted : BuilderOf (newFilesOf seen) (edit.deletedFiles.foldl Builder.delete state.builder) := by
    intro l
    rw [foldl_delete_added]
    exact built l
  rw [RecoverState.recordChecked, Builder.applyChecked]
  by_cases bad : ∃ e ∈ edit.compactPointers, ¬e.2.NonEmpty
  · rw [if_pos bad]
    obtain ⟨e, mem, isEmpty⟩ := bad
    exact .inr ⟨fun whole => isEmpty (whole.pointers edit (by simp) e mem), rfl⟩
  rw [if_neg bad]
  cases foldlM_addChecked edit.newFiles applicable.comparable deleted with
  | inl passes =>
    obtain ⟨comparable, run, after⟩ := passes
    rw [run]
    refine .inl ⟨⟨SortedList.forall_mem_concat applicable.pointers ?_, isNew ▸ comparable⟩, rfl, isNew ▸ after⟩
    exact fun e inEdit => not_not.mp fun isEmpty => bad ⟨e, inEdit, isEmpty⟩
  | inr fails =>
    obtain ⟨notComparable, stops⟩ := fails
    rw [stops]
    exact .inr ⟨fun whole => notComparable (isNew ▸ whole.comparable), rfl⟩

theorem foldlM_recordChecked (edits : List (VersionEdit Bytes)) :
    (Applicable edits ∧ edits.foldlM RecoverState.recordChecked .init = .ok (edits.foldl RecoverState.record .init)) ∨
      (¬Applicable edits ∧ edits.foldlM RecoverState.recordChecked .init = .error .abort) := by
  have nothing : Applicable [] := ⟨by simp, fun _ several => by simp [newFilesOf, addedAt] at several⟩
  have start : BuilderOf (newFilesOf []) (RecoverState.init (K := Bytes)).builder :=
    fun l => ⟨by rintro _ ⟨⟩, by simp [newFilesOf, addedAt], fun _ => rfl⟩
  have closed : ∀ seen edit rest, Applicable (seen ++ edit :: rest) → Applicable (seen ++ [edit]) := by
    intro seen edit rest applicable
    rw [← singleton_append, ← append_assoc] at applicable
    have comparable := applicable.comparable
    rw [newFilesOf_append] at comparable
    exact ⟨fun other mem => applicable.pointers other (mem_append_left _ mem), comparable.of_append⟩
  have whole := @Transition.foldlM_checked _ _ _ RecoverState.recordChecked RecoverState.record .abort Applicable
    (fun seen state => BuilderOf (newFilesOf seen) state.builder) closed
    (fun _ _ edit applicable built => recordChecked_eq applicable built edit) edits [] .init nothing start
  exact whole.imp_left fun passes => ⟨passes.1, passes.2.1⟩

end Apply

/-! ## What the builder holds after the edits -/

variable {l : Nat}

section Built

theorem foldl_record_isSome {noted : RecoverState Bytes → Option Nat} {field : VersionEdit Bytes → Option Nat}
    (later : ∀ state edit, noted (state.record edit) = (field edit <|> noted state))
    (edits : List (VersionEdit Bytes)) (state : RecoverState Bytes) :
    (noted (edits.foldl RecoverState.record state)).isSome ↔
      (∃ edit ∈ edits, (field edit).isSome) ∨ (noted state).isSome := by
  induction edits generalizing state with
  | nil => simp
  | cons edit rest ih =>
    have either : (field edit <|> noted state).isSome ↔ (field edit).isSome ∨ (noted state).isSome := by
      cases field edit <;> simp
    rw [foldl_cons, ih, later, either, exists_mem_cons_iff, ← or_assoc, or_comm (b := (field edit).isSome = true)]

def keptOf (edits : List (VersionEdit Bytes)) (level : Nat) : List (FileMetaData Bytes) :=
  keptFiles (edits.foldl Builder.apply Builder.init level) []

theorem mem_keptOf {edits : List (VersionEdit Bytes)} {f : FileMetaData Bytes} :
    f ∈ keptOf edits l ↔ Listed edits l f := by
  rw [keptOf, mem_keptFiles, foldl_apply_addedFiles, foldl_apply_deleted,
    mem_foldl_insertFile _ (show InOrder (Builder.init l).addedFiles from List.Pairwise.nil)]
  simp [Builder.init, Listed]

theorem keptOf_inOrder (edits : List (VersionEdit Bytes)) (l : Nat) : InOrder (keptOf edits l) := by
  apply keptFiles_inOrder List.Pairwise.nil
  · rw [foldl_apply_addedFiles]
    exact foldl_insertFile_inOrder _ List.Pairwise.nil
  · simp

end Built

/-! ## The assertions in `SaveTo` -/

section Save

theorem mergeFiles_nil (added : List (FileMetaData Bytes)) : mergeFiles [] added = added := by
  induction added with
  | nil => rfl
  | cons f added ih => exact congrArg (f :: ·) ih

variable {files res : List (FileMetaData Bytes)}

theorem maybeAddFile_of_checked {deletedFiles : List Nat}
    {f : FileMetaData Bytes} (saved : maybeAddFileChecked l deletedFiles files f = some res) :
    maybeAddFile l deletedFiles files f = some res := by
  rw [maybeAddFileChecked] at saved
  split at saved
  · cases saved
  · exact saved

theorem saveLevel_of_checked {state : LevelState Bytes}
    (saved : saveLevelChecked l state = some res) : saveLevel l state [] = some res := by
  rw [saveLevel, mergeFiles_nil]
  rw [saveLevelChecked] at saved
  generalize [] = files at saved ⊢
  generalize state.addedFiles = offered at saved ⊢
  induction offered generalizing files with
  | nil => exact saved
  | cons f rest ih =>
    rw [foldlM_cons] at saved ⊢
    obtain ⟨middle, first, later⟩ := Option.bind_eq_some_iff.mp saved
    rw [maybeAddFile_of_checked first]
    exact ih middle later

/-- The comparisons of formed keys pass the assertions. -/
theorem foldlM_maybeAddFileChecked {deletedFiles : List Nat} (offered : List (FileMetaData Bytes))
    (formed : ∀ f ∈ files, f.Formed)
    (offeredFormed : ∀ f ∈ offered, f.number ∉ deletedFiles → f.Formed) :
    offered.foldlM (maybeAddFileChecked l deletedFiles) files = offered.foldlM (maybeAddFile l deletedFiles) files := by
  induction offered generalizing files with
  | nil => rfl
  | cons f rest ih =>
    have passes : maybeAddFileChecked l deletedFiles files f = maybeAddFile l deletedFiles files f := by
      rw [maybeAddFileChecked, if_neg]
      rintro ⟨kept, -, unformed⟩
      cases isLast : files.getLast? with
      | none => simp [isLast] at unformed
      | some last =>
        have lastFormed := formed last (mem_of_getLast? isLast)
        have newFormed := offeredFormed f (by simp) kept
        simp [isLast, lastFormed.largest, newFormed.smallest] at unformed
    rw [foldlM_cons, foldlM_cons, passes]
    cases taken : maybeAddFile l deletedFiles files f with
    | none => rfl
    | some next =>
      apply ih
      · rw [maybeAddFile] at taken
        split at taken
        · cases taken
          exact formed
        split at taken
        · cases taken
        cases taken
        exact SortedList.forall_mem_concat formed (offeredFormed f (by simp) ‹_›)
      · exact fun g mem => offeredFormed g (by simp [mem])

theorem saveLevelChecked_eq {state : LevelState Bytes} (formed : ∀ f ∈ keptFiles state [], f.Formed)
    (disjoint : 0 < l → DisjointSorted (keptFiles state [])) :
    saveLevelChecked l state = some (keptFiles state []) := by
  have unchecked := saveLevel_of_isChain fun pos => (disjoint pos).isChain
  rw [saveLevel, mergeFiles_nil] at unchecked
  rw [saveLevelChecked, foldlM_maybeAddFileChecked _ (by simp), unchecked]
  intro f mem kept
  exact formed f (mem_keptFiles.mpr ⟨.inr mem, kept⟩)

/-- What `Recover` is to guarantee of the version it installs. -/
structure Version.WellFormed (version : Version Bytes) : Prop where
  formed : ∀ level, ∀ f ∈ version.files level, f.Formed
  disjoint : ∀ level, 0 < level → DisjointSorted (version.files level)

theorem saveToChecked_wellFormed_iff (b : Builder Bytes) : (∃ v, saveToChecked b = some v ∧ v.WellFormed) ↔
      ∀ l < kNumLevels, (∀ f ∈ keptFiles (b l) [], f.Formed) ∧ (0 < l → DisjointSorted (keptFiles (b l) [])) := by
  constructor
  · rintro ⟨v, saved, wellFormed⟩ l bound
    rw [saveToChecked] at saved
    split at saved
    case isFalse => cases saved
    case isTrue all =>
      cases saved
      have isSome := all_eq_true.mp all l (mem_range.mpr bound)
      obtain ⟨files, here⟩ := Option.isSome_iff_exists.mp isSome
      have kept := (saveLevel_some (saveLevel_of_checked here)).1
      have formed := wellFormed.formed l
      have disjoint := wellFormed.disjoint l
      simp only [bound, if_true, here, Option.getD_some, kept] at formed disjoint
      exact ⟨formed, disjoint⟩
  · intro good
    have here : ∀ l < kNumLevels, saveLevelChecked l (b l) = some (keptFiles (b l) []) :=
      fun l bound => saveLevelChecked_eq (good l bound).1 (good l bound).2
    rw [saveToChecked, if_pos]
    · refine ⟨_, rfl, ⟨fun l f mem => ?_, fun l pos => ?_⟩⟩
      · simp only at mem
        split at mem
        case isTrue bound =>
          rw [here l bound] at mem
          exact (good l bound).1 f mem
        case isFalse => cases mem
      · simp only
        split
        case isTrue bound =>
          rw [here l bound]
          exact (good l bound).2 pos
        case isFalse => exact List.Pairwise.nil
    · rw [all_eq_true]
      intro l inRange
      rw [here l (mem_range.mp inRange)]
      rfl

theorem disjointSorted_iff (ord : InOrder files) :
    DisjointSorted files ↔ ∀ f ∈ files, ∀ g ∈ files, f.sortKey < g.sortKey → f.largest < g.smallest := by
  constructor
  · intro disjoint f left g right pre
    have both := pairwise_and_iff.mpr ⟨ord, disjoint⟩
    have ne : f ≠ g := fun eq => absurd pre (eq ▸ lt_irrefl _)
    obtain eq | ⟨-, apart⟩ | ⟨after, -⟩ := SortedList.rel_or_rel both left right
    · exact absurd eq ne
    · exact apart
    · exact absurd pre after.not_gt
  · intro apart
    exact List.Pairwise.imp_of_mem (fun left right pre => apart _ left _ right pre) ord

end Save

/-! ## `Recover` -/

section Recover

variable {crc : Log.Crc} {rh : Nat → Nat → Digest}

/-- `Recover` ends with a status, or installs a version as it should be. -/
def Robust : Except Status (Recovered Bytes) → Prop
  | .error status => status ≠ .abort
  | .ok recovered => recovered.version.WellFormed

theorem install_robust_iff (state : RecoverState Bytes) :
    Robust state.install ↔ (state.nextFile.isSome → state.logNumber.isSome → state.lastSequence.isSome →
      ∃ v, saveToChecked state.builder = some v ∧ v.WellFormed) := by
  rw [RecoverState.install]
  cases state.nextFile with
  | none => simp [Robust]
  | some nextFile =>
    cases state.logNumber with
    | none => simp [Robust]
    | some logNumber =>
      cases state.lastSequence with
      | none => simp [Robust]
      | some lastSequence =>
        cases saveToChecked state.builder with
        | none | some => simp [Robust]

theorem installed_iff (edits : List (VersionEdit Bytes)) :
    (∃ v, saveToChecked (edits.foldl RecoverState.record .init).builder = some v ∧ v.WellFormed) ↔
      ∀ l < kNumLevels, ∀ f, Listed edits l f → f.Formed ∧
        (0 < l → ∀ g, Listed edits l g → f.sortKey < g.sortKey → f.largest < g.smallest) := by
  rw [foldl_record_builder, saveToChecked_wellFormed_iff]
  apply forall₂_congr
  intro l _
  change (∀ f ∈ keptOf edits l, f.Formed) ∧ (0 < l → DisjointSorted (keptOf edits l)) ↔ _
  simp only [disjointSorted_iff (keptOf_inOrder edits l), mem_keptOf]
  constructor
  · intro ⟨formed, disjoint⟩ f isListed
    exact ⟨formed f isListed, fun pos => disjoint pos f isListed⟩
  · intro each
    exact ⟨fun f isListed => (each f isListed).1, fun pos f isListed => (each f isListed).2 pos⟩

theorem recoverManifest_robust_iff (bytes : Bytes) : Robust (recoverManifest crc rh bytes) ↔
      Benign (manifestEdits crc rh bytes).1 (manifestEdits crc rh bytes).2 := by
  have status : ∀ status, (manifestEdits crc rh bytes).2 = some status → status ≠ .abort :=
    fun _ defect => editsLoop_defect defect
  rw [recoverManifest_eq, recoverEdits]
  generalize (manifestEdits crc rh bytes).1 = edits
  generalize (manifestEdits crc rh bytes).2 = defect at status
  cases foldlM_recordChecked edits with
  | inr fails =>
    rw [fails.2]
    exact iff_of_false (fun robust => robust rfl) fun benign => fails.1 benign.toApplicable
  | inl passes =>
    rw [passes.2]
    cases defect with
    | some found =>
      exact iff_of_true (status found rfl) ⟨passes.1, nofun⟩
    | none =>
      have next := @foldl_record_isSome RecoverState.nextFile VersionEdit.nextFileNumber (fun _ _ => rfl) edits .init
      have log := @foldl_record_isSome RecoverState.logNumber VersionEdit.logNumber (fun _ _ => rfl) edits .init
      have last := @foldl_record_isSome RecoverState.lastSequence VersionEdit.lastSequence (fun _ _ => rfl) edits .init
      refine (install_robust_iff _).trans ?_
      rw [next, log, last, installed_iff]
      simp only [RecoverState.init, Option.isSome_none, Bool.false_eq_true, or_false]
      exact ⟨fun listed => ⟨passes.1, fun _ => listed⟩, fun benign => benign.listed rfl⟩

/-- `Recover` copes with exactly those contents of CURRENT and the MANIFEST whose edits are benign. -/
theorem recoverFiles_robust_iff (crc : Log.Crc) (rh : Nat → Nat → Digest) (files : Bytes → Option Bytes) :
    Robust (recoverFiles crc rh files) ↔
      ∀ current bytes, files currentFileName = some current → current.getLast? = some 10 →
        files current.dropLast = some bytes → Benign (manifestEdits crc rh bytes).1 (manifestEdits crc rh bytes).2 := by
  rw [recoverFiles]
  cases files currentFileName with
  | none => simp [Robust]
  | some current =>
    simp only
    by_cases newline : current.getLast? = some 10
    · rw [if_neg (not_not.mpr newline)]
      cases named : files current.dropLast with
      | none =>
        refine iff_of_true (by simp [Robust]) fun _ _ isCurrent _ isManifest => ?_
        cases isCurrent
        rw [named] at isManifest
        cases isManifest
      | some bytes =>
        rw [recoverManifest_robust_iff]
        constructor
        · intro benign _ _ isCurrent _ isManifest
          cases isCurrent
          rw [named] at isManifest
          cases isManifest
          exact benign
        · intro benign
          exact benign current bytes rfl newline named
    · rw [if_pos newline]
      refine iff_of_true (by simp [Robust]) fun _ _ isCurrent ends => ?_
      cases isCurrent
      exact absurd ends newline

def oneRecord (crc : Log.Crc) (record name : Bytes) : Option Bytes :=
  if name = currentFileName then some [77, 10]
  else if name = [77] then some (Log.physical crc (.full, record))
  else none

/-- Two files at level 1, of the keys from a to c and from b to d.  The record is well formed and its
checksum is right. -/
theorem overlapping_files_abort : ∃ record : Bytes, ∀ crc rh,
    recoverFiles crc rh (oneRecord crc record) = .error .abort := by
  let record : Bytes := [2, 1, 3, 9, 4, 5, 7, 1, 3, 1, 9, 97, 1, 1, 0, 0, 0, 0, 0, 0, 9, 99, 1, 1, 0, 0, 0, 0, 0, 0,
    7, 1, 4, 1, 9, 98, 1, 1, 0, 0, 0, 0, 0, 0, 9, 100, 1, 1, 0, 0, 0, 0, 0, 0]
  refine ⟨record, fun crc rh => ?_⟩
  have framed : Log.Framed crc true 0 (Log.physical crc (.full, record) ++ []) [(.full, record)] :=
    .record (by decide) (.nil _)
  rw [append_nil] at framed
  have opens : recoverFiles crc rh (oneRecord crc record) =
    recoverManifest crc rh (Log.physical crc (.full, record)) := rfl
  have decodes : EditRecord.decodeFrom .new record = .ok { EditRecord.new with
      logNumber := some 1
      nextFileNumber := some 9
      lastSequence := some 5
      newFiles := [
        (1, ⟨3, 1, ⟨[97, 1, 1, 0, 0, 0, 0, 0, 0], by decide⟩, ⟨[99, 1, 1, 0, 0, 0, 0, 0, 0], by decide⟩⟩),
        (1, ⟨4, 1, ⟨[98, 1, 1, 0, 0, 0, 0, 0, 0], by decide⟩, ⟨[100, 1, 1, 0, 0, 0, 0, 0, 0], by decide⟩⟩)] } := rfl
  have one : Log.assemble none [(.full, record)] = [record] := rfl
  rw [opens, recoverManifest_eq, manifestEdits_framed framed rfl, one, editsOf, VersionEdit.decodeFrom, decodes,
    Except.map, EditRecord.toEdit, EditRecord.deletedList, EditRecord.new, Finset.sort_empty]
  rfl

end Recover

end Elsm
