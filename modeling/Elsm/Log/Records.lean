import Elsm.Log.Framed

/-!
# The records of a log file

`assemble` puts fragments together as `ReadRecord` does, and `readAll_framed` says that this is what
reading a file gives.  `Appended` is what the writer adds to a file.
-/

namespace Elsm.Log

open List

/-! ## Putting fragments together -/

/-- The records in a sequence of fragments.  The state is the part of a record read so far. -/
def assemble : Option Bytes → List Fragment → List Bytes
  | _, [] => []
  | _, (.full, payload) :: others => payload :: assemble none others
  | _, (.first, payload) :: others => assemble (some payload) others
  | some scratch, (.middle, payload) :: others => assemble (some (scratch ++ payload)) others
  | none, (.middle, _) :: others => assemble none others
  | some scratch, (.last, payload) :: others => (scratch ++ payload) :: assemble none others
  | none, (.last, _) :: others => assemble none others

def partialReport (reason : String) : Option Bytes → List (Nat × String)
  | some (byte :: scratch) => [((byte :: scratch).length, reason)]
  | _ => []

def reported : Option Bytes → List Fragment → List (Nat × String)
  | _, [] => []
  | scratch, (.full, _) :: others => partialReport "partial record without end(1)" scratch ++ reported none others
  | scratch, (.first, payload) :: others =>
    partialReport "partial record without end(2)" scratch ++ reported (some payload) others
  | some scratch, (.middle, payload) :: others => reported (some (scratch ++ payload)) others
  | none, (.middle, payload) :: others =>
    (payload.length, "missing start of fragmented record(1)") :: reported none others
  | some _, (.last, _) :: others => reported none others
  | none, (.last, payload) :: others =>
    (payload.length, "missing start of fragmented record(2)") :: reported none others

variable {crc : Crc} {checksum whole : Bool} {fragments : List Fragment} {others : List (List Fragment)} {r r' : Reader}

theorem reportPartial_eq (r : Reader) (scratch : Option Bytes) (reason : String) :
    r.reportPartial scratch.isSome (scratch.getD []) reason =
      { r with reports := r.reports ++ partialReport reason scratch } := by
  cases scratch with
  | none => simp [Reader.reportPartial, partialReport]
  | some scratch =>
    cases scratch with
    | nil => simp [Reader.reportPartial, partialReport]
    | cons byte scratch => simp [Reader.reportPartial, Reader.reportCorruption, partialReport]

theorem readPhysicalRecord_report {type : Nat} {fr : Bytes}
    (reads : r.readPhysicalRecord crc checksum = (type, fr, r')) : ∃ made, r'.reports = r.reports ++ made ∧
      ∀ reports, Reader.readPhysicalRecord crc checksum { r with reports } =
        (type, fr, { r' with reports := reports ++ made }) := by
  have parses : ∀ (r : Reader) reports, Reader.parsePhysicalRecord crc checksum { r with reports } =
      let parsed := Reader.parsePhysicalRecord crc checksum { r with reports := [] }
      (parsed.1, parsed.2.1, { parsed.2.2 with reports := reports ++ parsed.2.2.reports }) := by
    intro r reports
    simp only [Reader.parsePhysicalRecord, Reader.reportCorruption]
    repeat' split
    all_goals simp
  have after : ∀ (next : Reader) reports,
      (if next.buffer.length < kHeaderSize then (kEof, [], { next with buffer := [], reports })
        else Reader.parsePhysicalRecord crc checksum { next with reports }) =
      let read := if next.buffer.length < kHeaderSize then (kEof, [], { next with buffer := [], reports := [] })
        else Reader.parsePhysicalRecord crc checksum { next with reports := [] }
      (read.1, read.2.1, { read.2.2 with reports := reports ++ read.2.2.reports }) := by
    intro next reports
    split
    · simp
    · exact parses next reports
  have whole : ∀ reports, Reader.readPhysicalRecord crc checksum { r with reports } =
      let read := Reader.readPhysicalRecord crc checksum { r with reports := [] }
      (read.1, read.2.1, { read.2.2 with reports := reports ++ read.2.2.reports }) := by
    intro reports
    by_cases refills : r.buffer.length < kHeaderSize ∧ ¬r.eof
    · simp only [Reader.readPhysicalRecord, if_pos refills]
      exact after r.refill reports
    · simp only [Reader.readPhysicalRecord, if_neg refills]
      exact after r reports
  have here := reads.symm.trans (whole r.reports)
  simp only [Prod.mk.injEq] at here
  obtain ⟨rfl, rfl, rfl⟩ := here
  exact ⟨_, rfl, whole⟩

theorem Reads.report (answers : Reads crc checksum r fragments others) (reports : List (Nat × String)) :
    Reads crc checksum { r with reports } fragments others := by
  induction answers generalizing reports with
  | eof reads silent =>
    obtain ⟨made, isMade, reads'⟩ := readPhysicalRecord_report reads
    obtain rfl := self_eq_append_right.mp (silent.symm.trans isMade)
    exact .eof (reads' reports) (append_nil _)
  | fragment reads silent _ ih =>
    obtain ⟨made, isMade, reads'⟩ := readPhysicalRecord_report reads
    obtain rfl := self_eq_append_right.mp (silent.symm.trans isMade)
    exact .fragment (reads' reports) (append_nil _) (ih _)
  | bad reads _ ih =>
    obtain ⟨made, -, reads'⟩ := readPhysicalRecord_report reads
    exact .bad (reads' reports) (ih _)

/-- The records in such answers: a bad record ends the one that is being put together. -/
def assembleAll (scratch : Option Bytes) (fragments : List Fragment) (others : List (List Fragment)) : List Bytes :=
  assemble scratch fragments ++ others.flatMap (assemble none)

/-- What one `ReadRecord` gives with these answers to come. -/
def Gives (crc : Crc) (checksum : Bool) (scratch : Option Bytes) (fragments : List Fragment)
    (others : List (List Fragment)) (r : Reader) : Option Bytes × Reader → Prop
  | (none, r') => assembleAll scratch fragments others = [] ∧
      (others = [] → r'.reports = r.reports ++ reported scratch fragments)
  | (some record, r') => ∃ fragments' others', Reads crc checksum r' fragments' others' ∧
      assembleAll scratch fragments others = record :: assembleAll none fragments' others' ∧
      (others = [] → others' = [] ∧ r'.reports ++ reported none fragments' = r.reports ++ reported scratch fragments)

theorem Gives.skip {scratch scratch' : Option Bytes} {fragments' : List Fragment} {others' : List (List Fragment)}
    {answer : Option Bytes × Reader} (gives : Gives crc checksum scratch' fragments' others' r' answer)
    (eq : assembleAll scratch fragments others = assembleAll scratch' fragments' others')
    (reports : others = [] → others' = [] ∧
      r'.reports ++ reported scratch' fragments' = r.reports ++ reported scratch fragments) :
    Gives crc checksum scratch fragments others r answer := by
  obtain ⟨found, last⟩ := answer
  cases found with
  | none =>
    obtain ⟨nothing, ends⟩ := gives
    exact ⟨eq.trans nothing, fun whole => (ends (reports whole).1).trans (reports whole).2⟩
  | some record =>
    obtain ⟨rest, later, reads, assembled, ends⟩ := gives
    refine ⟨rest, later, reads, eq.trans assembled, fun whole => ?_⟩
    exact ⟨(ends (reports whole).1).1, (ends (reports whole).1).2.trans (reports whole).2⟩

theorem readRecordLoop_gives (answers : Reads crc checksum r fragments others) (scratch : Option Bytes) {fuel : Nat}
    (le : r.pending < fuel) : Gives crc checksum scratch fragments others r
      (r.readRecordLoop crc checksum fuel scratch.isSome (scratch.getD [])) := by
  induction fuel generalizing r scratch fragments others with
  | zero => cases le
  | succ fuel ih =>
    cases answers with
    | eof reads silent =>
      simp only [Reader.readRecordLoop, reads, kEof]
      refine ⟨by cases scratch <;> rfl, fun _ => ?_⟩
      rw [silent]
      cases scratch <;> exact (append_nil _).symm
    | bad reads next =>
      have uses := Reader.readPhysicalRecord_uses reads (by decide)
      have goesOn : ∀ reports, _ := fun reports => ih (next.report reports)
        none (Nat.lt_of_lt_of_le uses (Nat.le_of_lt_succ le))
      simp only [Reader.readRecordLoop, reads, kBadRecord]
      cases scratch with
      | none | some => exact (goesOn _).skip rfl (by rintro ⟨⟩)
    | fragment reads silent next =>
      rename_i r' fr fragments
      obtain ⟨t, pl⟩ := fr
      have uses := Reader.readPhysicalRecord_uses reads (by cases t <;> simp [RecordType.code, kEof])
      have goesOn : ∀ reports state, Gives crc checksum state fragments others { r' with reports }
          (Reader.readRecordLoop crc checksum fuel state.isSome (state.getD []) { r' with reports }) :=
        fun reports state => ih (next.report reports) state (Nat.lt_of_lt_of_le uses (Nat.le_of_lt_succ le))
      rw [Reader.readRecordLoop, reads]
      cases t with
      | full =>
        simp only [RecordType.code, reportPartial_eq]
        refine ⟨fragments, others, next.report _, by cases scratch <;> rfl, fun whole => ⟨whole, ?_⟩⟩
        rw [silent, append_assoc]
        cases scratch <;> rfl
      | first =>
        simp only [RecordType.code, reportPartial_eq]
        refine (goesOn _ (some pl)).skip (by cases scratch <;> rfl) fun whole => ⟨whole, ?_⟩
        rw [silent, append_assoc]
        cases scratch <;> rfl
      | middle =>
        cases scratch with
        | none => exact (goesOn _ none).skip rfl fun whole => ⟨whole, by rw [silent, append_assoc]; rfl⟩
        | some scratch =>
          exact (goesOn r'.reports (some (scratch ++ pl))).skip rfl fun whole => ⟨whole, by rw [silent]; rfl⟩
      | last =>
        cases scratch with
        | none => exact (goesOn _ none).skip rfl fun whole => ⟨whole, by rw [silent, append_assoc]; rfl⟩
        | some scratch => exact ⟨fragments, others, next, rfl, fun whole => ⟨whole, by rw [silent]; rfl⟩⟩

theorem Reads.gives (answers : Reads crc checksum r fragments others) :
    Gives crc checksum none fragments others r (r.readRecord crc checksum) :=
  readRecordLoop_gives answers none (Nat.lt_succ_self _)

theorem Reads.yields {last : Reader} {items : List Bytes} (answers : Reads crc checksum r fragments others)
    (yields : Stream.Yields (Reader.readRecord crc checksum) r items last) :
    items = assembleAll none fragments others ∧
      (others = [] → last.reports = r.reports ++ reported none fragments) := by
  induction yields generalizing fragments others with
  | done ends =>
    have gives := answers.gives
    rw [ends] at gives
    exact ⟨gives.1.symm, gives.2⟩
  | more reads _ ih =>
    have gives := answers.gives
    rw [reads] at gives
    obtain ⟨fragments', others', answers', assembled, reports⟩ := gives
    obtain ⟨isItems, ends⟩ := ih answers'
    exact ⟨by rw [assembled, isItems], fun whole => (ends (reports whole).1).trans (reports whole).2⟩

/-- Reading a file gives the records that can be put together from the whole fragments in it. -/
theorem readAll_framed {bytes : Bytes} (framed : Framed crc whole 0 bytes fragments)
    (checksum : Bool) : (Reader.readAll crc checksum bytes).1 = assemble none fragments ∧
      (Reader.readAll crc checksum bytes).2.reports = reported none fragments := by
  have reads := framed.atEnd.reads (start_at bytes) checksum
  obtain ⟨isItems, reports⟩ := reads.yields (Reader.readAll_yields crc checksum bytes).1
  exact ⟨isItems.trans (append_nil _), reports rfl⟩

/-! ## The fragments of a record -/

/-- Fragments that a record, or what is left of it, can be written as. -/
inductive Split : Bool → Bytes → List Fragment → Prop
  | full (record : Bytes) : Split true record [(.full, record)]
  | last (left : Bytes) : Split false left [(.last, left)]
  | more {left : Bytes} {fragments : List Fragment} (begin : Bool) (payload : Bytes)
      (others : Split false left fragments) :
      Split begin (payload ++ left) ((if begin then .first else .middle, payload) :: fragments)

theorem Split.assemble_rest {left : Bytes} (split : Split false left fragments) (scratch : Bytes)
    (others : List Fragment) :
    assemble (some scratch) (fragments ++ others) = (scratch ++ left) :: assemble none others ∧
      reported (some scratch) (fragments ++ others) = reported none others := by
  generalize isLeft : false = begin at split
  induction split generalizing scratch with
  | full => cases isLeft
  | last left => exact ⟨rfl, rfl⟩
  | more begin pl _ ih =>
    subst isLeft
    obtain ⟨assembled, silent⟩ := ih (scratch ++ pl) rfl
    rw [append_assoc] at assembled
    exact ⟨assembled, silent⟩

theorem Split.assemble_eq {r : Bytes} (split : Split true r fragments) (scratch : Option Bytes)
    (others : List Fragment) :
    assemble scratch (fragments ++ others) = r :: assemble none others := by
  cases split with
  | full => cases scratch <;> rfl
  | more begin pl split =>
    have assembled := (split.assemble_rest pl others).1
    cases scratch <;> exact assembled

theorem Split.reported_eq {r : Bytes} (split : Split true r fragments)
    (others : List Fragment) : reported none (fragments ++ others) = reported none others := by
  cases split with
  | full => rfl
  | more begin pl split => exact (split.assemble_rest pl others).2

/-! ## Writing a file -/

/-- A file that takes everything. -/
def plainFile : WritableFile Bytes := ⟨fun data dest => (true, dest ++ data), fun dest => (true, dest)⟩

structure Appended (crc : Crc) (w w' : Writer Bytes) (bytes : Bytes) (fragments : List Fragment) : Prop where
  dest : w'.dest = w.dest ++ bytes
  framed : Framed crc true w.blockOffset bytes fragments
  inBlock : w'.blockOffset ≤ kBlockSize
  offset : (w.blockOffset + bytes.length) % kBlockSize = w'.blockOffset % kBlockSize

theorem emit_appended {w : Writer Bytes} {fr : Fragment}
    (fits : w.blockOffset + kHeaderSize + fr.2.length ≤ kBlockSize) :
    ∃ w', emitPhysicalRecord plainFile crc fr.1 fr.2 w = (true, w') ∧
      w'.blockOffset = w.blockOffset + kHeaderSize + fr.2.length ∧
      Appended crc w w' (physical crc fr) [fr] := by
  have framed : Framed crc true w.blockOffset (physical crc fr ++ []) [fr] := .record fits (.nil _)
  rw [append_nil] at framed
  refine ⟨_, rfl, rfl, ?_, framed, fits, ?_⟩
  · rw [physical, ← append_assoc]
    rfl
  · rw [physical_length, Nat.add_assoc]

theorem Appended.trans {w middle w' : Writer Bytes} {bytes more : Bytes} {others : List Fragment}
    (inB : w.blockOffset ≤ kBlockSize) (first : Appended crc w middle bytes fragments)
    (snd : Appended crc middle w' more others) : Appended crc w w' (bytes ++ more) (fragments ++ others) where
  dest := by rw [snd.dest, first.dest, append_assoc]
  framed := first.framed.append snd.framed inB first.inBlock first.offset
  inBlock := snd.inBlock
  offset := by
    rw [← snd.offset, length_append, ← Nat.add_assoc, Nat.add_mod, first.offset, ← Nat.add_mod]

theorem switchBlock_appended {w : Writer Bytes} (inB : w.blockOffset ≤ kBlockSize) :
    (switchBlock plainFile w).blockOffset + kHeaderSize ≤ kBlockSize ∧
      ∃ zeros, Appended crc w (switchBlock plainFile w) zeros [] := by
  simp only [switchBlock]
  split
  case isTrue few =>
    refine ⟨(by decide : 0 + kHeaderSize ≤ kBlockSize), replicate (kBlockSize - w.blockOffset) 0, ?_, ?_,
      Nat.zero_le _, ?_⟩
    · split
      case isTrue => rfl
      case isFalse none => simp [show kBlockSize - w.blockOffset = 0 by omega]
    · apply Framed.trailer
      · omega
      · rw [length_replicate]
        omega
    · rw [length_replicate, Nat.add_sub_cancel' inB, Nat.mod_self, Nat.zero_mod]
  case isFalse room =>
    exact ⟨by omega, [], by simp, .nil _, inB, rfl⟩

end Elsm.Log
