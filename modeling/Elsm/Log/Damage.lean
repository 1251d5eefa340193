import Elsm.Log.Truncated

/-!
# A log file with a damaged block

A block that does not hold what was written is given up at the first physical record that fails a
check.  The reader drops the record it was putting together and goes on with the next block, where it
skips what is left of a record it has not seen the start of.  So only records with a fragment in that block can be lost
(`readRecord_damaged`), under the assumption that the checksum accepts nothing in the block that was not written there.
-/

namespace Elsm.Log

open List

variable {crc : Crc}

variable {r : Reader} {fragments : List Fragment}

/-! ## The checks -/

/-- A physical record at the front of what is left of a block goes through the checks of `ReadPhysicalRecord`. -/
structure Accepted (crc : Crc) (buffer : Bytes) : Prop where
  header : kHeaderSize ≤ buffer.length
  fits : kHeaderSize + ((buffer.getD 4 0).toNat + 256 * (buffer.getD 5 0).toNat) ≤ buffer.length
  notZero : ¬(Reader.typeOf (buffer.getD 6 0) = 0 ∧ (buffer.getD 4 0).toNat + 256 * (buffer.getD 5 0).toNat = 0)
  checksum : crc ((buffer.drop 6).take (1 + ((buffer.getD 4 0).toNat + 256 * (buffer.getD 5 0).toNat))) =
    Crc32c.unmask (UInt32.ofNat (decodeFixed32 buffer))

instance (crc : Crc) (buffer : Bytes) : Decidable (Accepted crc buffer) :=
  decidable_of_iff (kHeaderSize ≤ buffer.length ∧
      kHeaderSize + ((buffer.getD 4 0).toNat + 256 * (buffer.getD 5 0).toNat) ≤ buffer.length ∧
      ¬(Reader.typeOf (buffer.getD 6 0) = 0 ∧ (buffer.getD 4 0).toNat + 256 * (buffer.getD 5 0).toNat = 0) ∧
      crc ((buffer.drop 6).take (1 + ((buffer.getD 4 0).toNat + 256 * (buffer.getD 5 0).toNat))) =
        Crc32c.unmask (UInt32.ofNat (decodeFixed32 buffer)))
    ⟨fun ⟨header, fits, notZero, checksum⟩ => ⟨header, fits, notZero, checksum⟩,
      fun accepted => ⟨accepted.header, accepted.fits, accepted.notZero, accepted.checksum⟩⟩

/-- What fails a check ends the block, or the file if it ends in this block. -/
theorem parse_cases (crc : Crc) (header : kHeaderSize ≤ r.buffer.length) : Accepted crc r.buffer ∨
      (r.eof = true ∧ r.parsePhysicalRecord crc true = (kEof, [], { r with buffer := [] })) ∨
      ∃ reports, r.parsePhysicalRecord crc true = (kBadRecord, [], { r with buffer := [], reports }) := by
  simp only [Reader.parsePhysicalRecord]
  split
  case isTrue =>
    split
    case isTrue isEof => exact .inr (.inl ⟨isEof, rfl⟩)
    case isFalse => exact .inr (.inr ⟨_, rfl⟩)
  case isFalse fits =>
    split
    case isTrue => exact .inr (.inr ⟨r.reports, rfl⟩)
    case isFalse notZero =>
      split
      case isTrue => exact .inr (.inr ⟨_, rfl⟩)
      case isFalse checked =>
        exact .inl ⟨header, Nat.le_of_not_lt fits, notZero, not_not.mp fun differs => checked ⟨trivial, differs⟩⟩

variable {o : Nat} {bytes : Bytes}

/-! ## The fragments of one block -/

variable {placed : List PlacedFragment} {size : Nat}

theorem Framed.block (framed : Framed crc true o bytes fragments)
    (isPlaced : placed.map (·.2) = fragments) (consec : Consecutive size placed) (here : size % kBlockSize = o) :
    ∃ ins later, placed = ins ++ later ∧ (∀ p ∈ ins, p.1 / kBlockSize = size / kBlockSize) ∧
      (∀ p ∈ later, p.1 / kBlockSize ≠ size / kBlockSize) ∧
      Framed crc true 0 (bytes.drop (kBlockSize - o)) (later.map (·.2)) := by
  induction framed generalizing size placed with
  | nil o =>
    obtain rfl := map_eq_nil_iff.mp isPlaced
    exact ⟨[], [], rfl, nofun, nofun, by simpa using .nil 0⟩
  | trailer few fits =>
    obtain rfl := map_eq_nil_iff.mp isPlaced
    refine ⟨[], [], rfl, nofun, nofun, ?_⟩
    rw [drop_eq_nil_of_le (by omega)]
    exact .nil 0
  | fill few full others =>
    rename_i o zeros _ _ _
    have sameOffset : size % kBlockSize = o % kBlockSize := by rw [← here, Nat.mod_mod]
    obtain ⟨isNext, isStart⟩ := nextOffset_fill sameOffset few full
    have there : Consecutive (size + zeros.length) placed := consec.skip (isStart.1.trans isNext.symm)
    refine ⟨[], placed, rfl, nofun, fun p mem => ?_, ?_⟩
    · have behind := there.le mem
      simp only [kBlockSize] at *
      omega
    · rw [drop_left' (by omega), isPlaced]
      exact others
  | record fits others ih =>
    rename_i o _ rest _
    obtain ⟨p, others', rfl, rfl, isOthers⟩ := map_eq_cons_iff.mp isPlaced
    obtain ⟨isNext, -, consec'⟩ := consec
    have sameOffset : size % kBlockSize = o % kBlockSize := by rw [← here, Nat.mod_mod]
    have isHere : p.1 = size := isNext.trans (nextOffset_room sameOffset (by omega))
    have isEnd : fragmentEnd p = size + kHeaderSize + p.2.2.length := by rw [fragmentEnd, isHere]
    have len := physical_length crc p.2
    by_cases full : o + kHeaderSize + p.2.2.length = kBlockSize
    · refine ⟨[p], others', rfl, ?_, fun q mem => ?_, ?_⟩
      · intro q mem
        rw [mem_singleton.mp mem, isHere]
      · have behind := consec'.le mem
        simp only [kBlockSize, kHeaderSize] at *
        omega
      · rw [drop_left' (by omega), isOthers]
        exact (full ▸ others).atStart
    · have there : fragmentEnd p % kBlockSize = o + kHeaderSize + p.2.2.length ∧
          fragmentEnd p / kBlockSize = size / kBlockSize := by
        rw [isEnd]
        simp only [kBlockSize, kHeaderSize] at *
        omega
      obtain ⟨ins, later, rfl, inB, behind, framed⟩ := ih isOthers consec' there.1
      refine ⟨p :: ins, later, rfl, forall_mem_cons.mpr ⟨by rw [isHere], there.2 ▸ inB⟩, there.2 ▸ behind, ?_⟩
      · rw [drop_append, drop_eq_nil_of_le (by omega), nil_append, len]
        rwa [show kBlockSize - o - (kHeaderSize + p.2.2.length) =
          kBlockSize - (o + kHeaderSize + p.2.2.length) by omega]
  | torn notWhole => cases notWhole

/-! ## Reading the damaged file -/

/-- A file that may differ from the one that was written in the block with the number `damaged`. -/
structure DamagedIn (crc : Crc) (damaged : Nat) (file file' : Bytes) (placed : List PlacedFragment) : Prop where
  length : file'.length = file.length
  same : ∀ i, i / kBlockSize ≠ damaged → file'[i]? = file[i]?
  /-- Where a fragment was written nothing else is accepted. -/
  checked : ∀ p ∈ placed, p.1 / kBlockSize = damaged →
    Accepted crc ((file'.drop p.1).take (kBlockSize - p.1 % kBlockSize)) → physical crc p.2 <+: file'.drop p.1

/-- The fragments that are lost lie in the damaged block, and they are replaced by one bad record unless the file
ends with that block. -/
def Survives (crc : Crc) (damaged : Nat) (placed : List PlacedFragment) (r : Reader) : Prop :=
  ∃ before lost later, placed = before ++ lost ++ later ∧ (∀ p ∈ lost, p.1 / kBlockSize = damaged) ∧
    ((lost ≠ [] ∧ Reads crc true r (before.map (·.2)) [later.map (·.2)]) ∨
      (lost = [] ∨ later = []) ∧ Reads crc true r ((before ++ later).map (·.2)) [])

variable {damaged : Nat}

theorem Survives.of_reads (answers : Reads crc true r (placed.map (·.2)) []) : Survives crc damaged placed r :=
  ⟨placed, [], [], by simp, nofun, .inr ⟨.inl rfl, by simpa using answers⟩⟩

variable {p : PlacedFragment}

theorem Survives.cons {r' : Reader} (survives : Survives crc damaged placed r')
    (reads : r.readPhysicalRecord crc true = (p.2.1.code, p.2.2, r')) (silent : r'.reports = r.reports) :
    Survives crc damaged (p :: placed) r := by
  obtain ⟨pre, lost, later, rfl, inB, answers⟩ := survives
  refine ⟨p :: pre, lost, later, rfl, inB, ?_⟩
  cases answers with
  | inl broken => exact .inl ⟨broken.1, .fragment reads silent broken.2⟩
  | inr whole => exact .inr ⟨whole.1, .fragment reads silent whole.2⟩

theorem Survives.of_same {r₁ : Reader} (survives : Survives crc damaged placed r₁)
    (eq : r.readPhysicalRecord crc true = r₁.readPhysicalRecord crc true) (sameReports : r₁.reports = r.reports) :
    Survives crc damaged placed r := by
  obtain ⟨pre, lost, later, isAll, inB, answers⟩ := survives
  exact ⟨pre, lost, later, isAll, inB, answers.imp (And.imp_right fun reads => reads.of_same eq sameReports)
    (And.imp_right fun reads => reads.of_same eq sameReports)⟩

section Damaged

variable {damaged : Nat} {file file' : Bytes} {all : List PlacedFragment}

section

variable (damage : DamagedIn crc damaged file file' all)

include damage

theorem DamagedIn.total
    (isAt : At r o (file'.drop size)) : r.buffer.length + r.rest.length = (file.drop size).length := by
  rw [← length_append, isAt.bytes, length_drop, length_drop, damage.length]

theorem DamagedIn.drop_eq (after : ∀ i, size ≤ i → i / kBlockSize ≠ damaged) : file'.drop size = file.drop size := by
  apply ext_getElem?
  intro i
  rw [getElem?_drop, getElem?_drop, damage.same _ (after _ (Nat.le_add_right ..))]

theorem DamagedIn.intact
    (fits : p.1 % kBlockSize + kHeaderSize + p.2.2.length ≤ kBlockSize) (elsewhere : p.1 / kBlockSize ≠ damaged)
    (wr : physical crc p.2 <+: file.drop p.1) : physical crc p.2 <+: file'.drop p.1 := by
  have len := physical_length crc p.2
  have eq : (file'.drop p.1).take (physical crc p.2).length = (file.drop p.1).take (physical crc p.2).length := by
    apply ext_getElem?
    intro i
    rw [getElem?_take, getElem?_take]
    split
    case isTrue ins =>
      have sameBlock : (p.1 + i) / kBlockSize = p.1 / kBlockSize := by
        rw [len] at ins
        simp only [kBlockSize, kHeaderSize] at *
        omega
      rw [getElem?_drop, getElem?_drop, damage.same _ (sameBlock ▸ elsewhere)]
    case isFalse => rfl
  rw [prefix_iff_eq_take] at wr ⊢
  exact wr.trans eq.symm

theorem Framed.broken {others : List PlacedFragment}
    (framed : Framed crc true o (file.drop size) ((p :: others).map (·.2))) (consec : Consecutive size (p :: others))
    (here : size % kBlockSize = o) (isHere : p.1 = size) (inDamaged : size / kBlockSize = damaged)
    (isAt : At r o (file'.drop size)) (header : kHeaderSize ≤ r.buffer.length) (rejected : ¬Accepted crc r.buffer) :
    Survives crc damaged (p :: others) r := by
  obtain ⟨ins, later, isAll, inB, behind, next⟩ := framed.block rfl consec here
  have someLost : ins ≠ [] := by
    rintro rfl
    rw [nil_append] at isAll
    exact behind p (isAll ▸ mem_cons_self) (congrArg (· / kBlockSize) isHere)
  have nextBlock : ∀ i, size + (kBlockSize - o) ≤ i → i / kBlockSize ≠ damaged := by
    intro i after
    simp only [kBlockSize] at *
    omega
  have isRest : r.rest = (file.drop size).drop (kBlockSize - o) := by
    rw [isAt.rest_eq, drop_drop, drop_drop, damage.drop_eq nextBlock]
  refine ⟨[], ins, later, isAll, fun q mem => (inB q mem).trans inDamaged, ?_⟩
  rcases parse_cases crc header with accepted | ⟨isEof, ends⟩ | ⟨reports, bad⟩
  · exact absurd accepted rejected
  · have isLast : later = [] := by
      rw [← isRest, isAt.atEof isEof] at next
      exact map_eq_nil_iff.mp next.nothing
    subst isLast
    exact .inr ⟨.inr rfl, .eof ((readPhysicalRecord_parse true header).trans ends) rfl⟩
  · have atNext : At { r with buffer := [], reports } kBlockSize r.rest := ⟨rfl, le_rfl, isAt.atEof, fun _ => rfl⟩
    have reads := (isRest ▸ next).atEnd.reads atNext true
    exact .inl ⟨someLost, .bad ((readPhysicalRecord_parse true header).trans bad) reads⟩

end

/-- What the reader finds in the damaged file: every fragment outside of the block, and those in it before the first one
that fails a check. -/
theorem Framed.survives
    (framed : Framed crc true o bytes fragments) (damage : DamagedIn crc damaged file file' all)
    (isPlaced : placed.map (·.2) = fragments) (consec : Consecutive size placed)
    (ms : ∀ p ∈ placed, p ∈ all) (here : size % kBlockSize = o % kBlockSize) (inB : o ≤ kBlockSize)
    (isBytes : file.drop size = bytes) (isAt : At r o (file'.drop size)) :
    Survives crc damaged placed r := by
  induction framed generalizing size placed r with
  | nil o =>
    obtain rfl := map_eq_nil_iff.mp isPlaced
    have total := damage.total isAt
    rw [isBytes, length_nil] at total
    exact .of_reads (.of_eof (by simp only [kHeaderSize]; omega) (length_eq_zero_iff.mp (by omega)))
  | trailer few fits =>
    obtain rfl := map_eq_nil_iff.mp isPlaced
    have inBuffer := isAt.inBlock
    have isRest : r.rest = [] := by
      rw [isAt.rest_eq]
      apply drop_eq_nil_of_le
      rw [length_drop, damage.length, ← length_drop, isBytes]
      omega
    exact .of_reads (.of_eof (by omega) isRest)
  | fill few full others ih =>
    rename_i o zeros rest fragments
    obtain ⟨isNext, isStart, atStart⟩ := nextOffset_fill here few full
    have there : Consecutive (size + zeros.length) placed := consec.skip (isStart.trans isNext.symm)
    have isRest : file.drop (size + zeros.length) = rest := by
      rw [← drop_drop, isBytes, drop_left' rfl]
    have isNext' : (file'.drop size).drop (kBlockSize - o) = file'.drop (size + zeros.length) := by
      rw [drop_drop, show kBlockSize - o = zeros.length by omega]
    obtain ⟨isNothing, atEnd⟩ | ⟨same, atNext⟩ := @At.trailer crc _ _ _ true isAt few
    · have none : rest = [] := by
        rw [← isRest, drop_eq_nil_iff, ← damage.length, ← drop_eq_nil_iff, ← isNext', isNothing]
      subst none
      obtain rfl := map_eq_nil_iff.mp (isPlaced.trans others.nothing)
      exact .of_reads atEnd
    · exact (ih isPlaced there ms atStart (Nat.zero_le _) isRest (isNext' ▸ atNext)).of_same same rfl
  | record fits others ih =>
    rename_i o _ rest _
    obtain ⟨p, others', rfl, rfl, isOthers⟩ := map_eq_cons_iff.mp isPlaced
    have isHere : p.1 = size := consec.1.trans (nextOffset_room here (by omega))
    have isOffset : size % kBlockSize = o := by
      simp only [kBlockSize, kHeaderSize] at *
      omega
    have len := physical_length crc p.2
    have found : physical crc p.2 <+: file'.drop size → Survives crc damaged (p :: others') r := by
      rintro ⟨rest', isBytes'⟩
      rw [← isBytes'] at isAt
      obtain ⟨r', reads, isAt', silent⟩ := isAt.fragment fits true
      have isEnd : fragmentEnd p = size + kHeaderSize + p.2.2.length := by rw [fragmentEnd, isHere]
      have isRest' : file'.drop (fragmentEnd p) = rest' := by
        rw [isEnd, Nat.add_assoc, ← drop_drop, ← isBytes', ← len, drop_left' rfl]
      have isRest : file.drop (fragmentEnd p) = rest := by
        rw [isEnd, Nat.add_assoc, ← drop_drop, isBytes, ← len, drop_left' rfl]
      have there : fragmentEnd p % kBlockSize = (o + kHeaderSize + p.2.2.length) % kBlockSize := by
        rw [isEnd, Nat.add_assoc, Nat.add_assoc, Nat.add_mod, here, ← Nat.add_mod]
      exact (ih isOthers consec.2.2 (forall_mem_cons.mp ms).2 there fits isRest
        (isRest' ▸ isAt')).cons reads silent
    by_cases inDamaged : size / kBlockSize = damaged
    · by_cases accepted : Accepted crc r.buffer
      · apply found
        rw [isAt.buffer_eq, ← isOffset, ← isHere] at accepted
        exact isHere ▸ damage.checked p (ms p mem_cons_self) (isHere ▸ inDamaged) accepted
      have header : kHeaderSize ≤ r.buffer.length := by
        rw [isAt.buffer_eq, length_take, length_drop, damage.length, ← length_drop, isBytes, length_append, len]
        omega
      have framed : Framed crc true o (file.drop size) ((p :: others').map (·.2)) := by
        rw [isBytes, map_cons, isOthers]
        exact .record fits others
      exact framed.broken damage consec isOffset isHere inDamaged isAt header accepted
    · apply found
      have wr : physical crc p.2 <+: file.drop p.1 := by
        rw [isHere, isBytes]
        exact prefix_append ..
      exact isHere ▸ damage.intact consec.2.1 (isHere ▸ inDamaged) wr
  | torn notWhole => cases notWhole

end Damaged

/-! ## The records that are left -/

/-- What is left of a record without its start is skipped. -/
theorem Split.skip {left : Bytes} {lost rest : List Fragment} (split : Split false left (lost ++ rest))
    (others : List Fragment) : assemble none (rest ++ others) = assemble none others := by
  induction lost generalizing left with
  | nil =>
    rw [nil_append] at split
    generalize isLeft : false = begin at split
    induction split with
    | full => cases isLeft
    | last => rfl
    | more begin pl _ ih =>
      subst isLeft
      exact ih rfl
  | cons fr lost ih =>
    generalize isLeft : false = begin, isAll : fr :: lost ++ rest = fragments at split
    cases split with
    | full => cases isLeft
    | last =>
      obtain ⟨-, rfl⟩ := append_eq_nil_iff.mp (List.cons.inj isAll).2
      rfl
    | more begin pl split =>
      obtain ⟨-, rfl⟩ := List.cons.inj isAll
      exact ih split

theorem Split.skip_end {r : Bytes} {lost rest : List Fragment} (split : Split true r (lost ++ rest))
    (some_ : lost ≠ []) (others : List Fragment) : assemble none (rest ++ others) = assemble none others := by
  obtain ⟨fr, lost, rfl⟩ := exists_cons_of_ne_nil some_
  generalize isAll : fr :: lost ++ rest = fragments at split
  cases split with
  | full =>
    obtain ⟨-, rfl⟩ := append_eq_nil_iff.mp (List.cons.inj isAll).2
    rfl
  | more begin pl split =>
    obtain ⟨-, rfl⟩ := List.cons.inj isAll
    exact split.skip others

variable {l : List (Bytes × List PlacedFragment)} {lost later : List PlacedFragment}

/-- With fragments in front of the rest lost, the records that had none of them are read. -/
def Spared (lost later : List PlacedFragment) (l : List (Bytes × List PlacedFragment)) : Prop :=
  ∃ gone kept, l = gone ++ kept ∧ (∀ e ∈ gone, ∃ p ∈ e.2, p ∈ lost) ∧ assemble none (later.map (·.2)) = kept.map (·.1)

/-- The fragments that are lost begin inside a record, and the rest of it is skipped. -/
theorem Split.spared {e : Bytes × List PlacedFragment} {pre mid : List PlacedFragment}
    (split : Split true e.1 (e.2.map (·.2))) (splits : ∀ e ∈ l, Split true e.1 (e.2.map (·.2)))
    (isSplit : e.2 = pre ++ mid)
    (someMid : mid ≠ []) (someLost : lost ≠ []) (isRest : lost ++ later = mid ++ placedFragments l)
    (others : ∀ {lost'}, lost' ++ later = placedFragments l → Spared lost' later l) : Spared lost later (e :: l) := by
  rcases append_eq_append_iff.mp isRest with ⟨mid', rfl, isLater⟩ | ⟨lost', rfl, isRest'⟩
  · obtain ⟨q, inLost⟩ := exists_mem_of_ne_nil lost someLost
    refine ⟨[e], l, rfl, forall_mem_singleton.mpr ⟨q, ?_, inLost⟩, ?_⟩
    · exact isSplit ▸ mem_append_right _ (mem_append_left _ inLost)
    rw [isSplit, map_append, map_append, ← append_assoc] at split
    rw [isLater, map_append, split.skip_end]
    · exact (assemble_whole splits).1
    · exact append_ne_nil_of_right_ne_nil _ (mt map_eq_nil_iff.mp someLost)
  · obtain ⟨q, inMid⟩ := exists_mem_of_ne_nil mid someMid
    obtain ⟨gone, kept, rfl, lostOnes, assembled⟩ := others isRest'.symm
    refine ⟨e :: gone, kept, rfl, forall_mem_cons.mpr ⟨⟨q, ?_, mem_append_left _ inMid⟩, fun other mem => ?_⟩,
      assembled⟩
    · exact isSplit ▸ mem_append_right _ inMid
    obtain ⟨p, inOther, inLost⟩ := lostOnes other mem
    exact ⟨p, inOther, mem_append_right _ inLost⟩

theorem assemble_later (splits : ∀ e ∈ l, Split true e.1 (e.2.map (·.2))) (isAll : lost ++ later = placedFragments l) :
    Spared lost later l := by
  induction l generalizing lost with
  | nil =>
    obtain ⟨-, rfl⟩ := append_eq_nil_iff.mp isAll
    exact ⟨[], [], rfl, nofun, rfl⟩
  | cons e rest ih =>
    obtain ⟨split, splits'⟩ := forall_mem_cons.mp splits
    by_cases nothing : lost = []
    · subst nothing
      refine ⟨[], e :: rest, rfl, nofun, ?_⟩
      rw [nil_append] at isAll
      rw [isAll]
      exact (assemble_whole splits).1
    · rw [placedFragments_cons] at isAll
      have someEntry : e.2 ≠ [] := fun isEmpty => split.nonempty (isEmpty ▸ rfl)
      exact split.spared splits' (nil_append _).symm someEntry nothing isAll (ih splits')

theorem assemble_around {pre : List PlacedFragment} (splits : ∀ e ∈ l, Split true e.1 (e.2.map (·.2)))
    (isAll : pre ++ (lost ++ later) = placedFragments l) (someLost : lost ≠ []) :
    ∃ kept rest, l = kept ++ rest ∧ assemble none (pre.map (·.2)) = kept.map (·.1) ∧ Spared lost later rest := by
  induction l generalizing pre with
  | nil =>
    obtain ⟨-, nothing⟩ := append_eq_nil_iff.mp isAll
    exact absurd (append_eq_nil_iff.mp nothing).1 someLost
  | cons e rest ih =>
    obtain ⟨split, splits'⟩ := forall_mem_cons.mp splits
    have goesOn : ∀ pre', pre = e.2 ++ pre' → pre' ++ (lost ++ later) = placedFragments rest →
        ∃ kept rest', e :: rest = kept ++ rest' ∧ assemble none (pre.map (·.2)) = kept.map (·.1) ∧
          Spared lost later rest' := by
      rintro pre' rfl isRest
      obtain ⟨kept, rest', rfl, assembled, spared⟩ := ih splits' isRest
      refine ⟨e :: kept, rest', rfl, ?_, spared⟩
      rw [map_append, split.assemble_eq, assembled]
      rfl
    rw [placedFragments_cons] at isAll
    rcases append_eq_append_iff.mp isAll with ⟨mid, isSplit, isRest⟩ | ⟨pre', isBefore, isRest⟩
    · by_cases nothing : mid = []
      · subst nothing
        exact goesOn [] (by rw [isSplit, append_nil, append_nil]) isRest
      · refine ⟨[], e :: rest, rfl, ?_, split.spared splits' isSplit nothing someLost isRest (assemble_later splits')⟩
        rw [isSplit, map_append] at split
        rw [(split.take rfl).1, if_neg (mt map_eq_nil_iff.mp nothing)]
        rfl
    · exact goesOn pre' isBefore isRest.symm

/-- What the reader returns from a damaged file: everything but some of the records with a fragment in the block. -/
theorem Survives.records {last : Reader} {returned : List Bytes} (survives : Survives crc damaged (placedFragments l) r)
    (splits : ∀ e ∈ l, Split true e.1 (e.2.map (·.2)))
    (yields : Stream.Yields (Reader.readRecord crc true) r returned last) :
    ∃ kept gone kept', l = kept ++ gone ++ kept' ∧
      (∀ e ∈ gone, ∃ p ∈ e.2, p.1 / kBlockSize = damaged) ∧ returned = (kept ++ kept').map (·.1) := by
  obtain ⟨pre, lost, later, isAll, inB, answers⟩ := survives
  by_cases nothing : lost = []
  · subst nothing
    have answers : Reads crc true r ((placedFragments l).map (·.2)) [] := by
      rcases answers with ⟨someLost, -⟩ | ⟨-, reads⟩
      · exact absurd rfl someLost
      · rwa [isAll, append_nil]
    refine ⟨l, [], [], by simp, nofun, ?_⟩
    rw [(answers.yields yields).1, assembleAll, (assemble_whole splits).1, append_nil]
    exact append_nil _
  · rw [append_assoc] at isAll
    obtain ⟨kept, _, rfl, assembled, gone, kept', rfl, lostOnes, assembled'⟩ :=
      assemble_around splits isAll.symm nothing
    refine ⟨kept, gone, kept', (append_assoc ..).symm, ?_, ?_⟩
    · intro e mem
      obtain ⟨p, inEntry, inLost⟩ := lostOnes e mem
      exact ⟨p, inEntry, inB p inLost⟩
    rcases answers with ⟨-, reads⟩ | ⟨ends, reads⟩
    · rw [(reads.yields yields).1, assembleAll, assembled, flatMap_singleton, assembled', ← map_append]
    obtain rfl := ends.resolve_left nothing
    rw [(reads.yields yields).1, assembleAll, append_nil, assembled, map_append, ← assembled']
    rfl

/-- A file that differs from the one written only inside one block, where the checksum accepts only what was written at
the same offset, gives a subsequence of the records with every record that has no fragment in the block. -/
theorem readRecord_damaged (crc : Crc) (records : List Bytes) (file : Bytes) (block : Nat)
    (sameLength : file.length = (addRecords crc records ⟨[], 0⟩).dest.length)
    (same : ∀ i, i / kBlockSize ≠ block → file[i]? = (addRecords crc records ⟨[], 0⟩).dest[i]?)
    (accepts : ∀ o, o / kBlockSize = block → Accepted crc ((file.drop o).take (kBlockSize - o % kBlockSize)) →
      ∃ fragment, (o, fragment) ∈ placedFragments (layout 0 records) ∧ physical crc fragment <+: file.drop o) :
    ∃ returned last, Stream.Yields (Reader.readRecord crc true) (.start file) returned last ∧ returned.Sublist records ∧
      (((layout 0 records).filter fun entry => ∀ p ∈ entry.2,
        p.1 / kBlockSize ≠ block).map (·.1)).Sublist returned := by
  have written := addRecords_written crc records
  have damage : DamagedIn crc block (addRecords crc records ⟨[], 0⟩).dest file
      (placedFragments (layout 0 records)) := by
    refine ⟨sameLength, same, fun p member inBlock accepted => ?_⟩
    obtain ⟨fragment, member', isThere⟩ := accepts p.1 inBlock accepted
    rwa [written.consecutive.eq_of_offset member member' rfl]
  have survives := written.framed.atEnd.survives damage rfl written.consecutive (fun _ member => member) rfl le_rfl rfl
    (start_at file)
  have yields := (Reader.readAll_yields crc true file).1
  obtain ⟨kept, gone, kept', isAll, lostOnes, returned⟩ := survives.records written.splits yields
  refine ⟨_, _, yields, ?_, ?_⟩
  · rw [returned, ← layout_records 0 records, isAll]
    exact (((sublist_append_left kept gone).append_right kept').map _)
  have none : (gone.filter fun entry => ∀ p ∈ entry.2, p.1 / kBlockSize ≠ block) = [] := by
    apply filter_eq_nil_iff.mpr
    intro entry member elsewhere
    obtain ⟨p, inEntry, inBlock⟩ := lostOnes entry member
    exact of_decide_eq_true elsewhere p inEntry inBlock
  rw [returned, isAll, filter_append, filter_append, none, append_nil]
  exact ((filter_sublist.append filter_sublist).map _)

/-- A checksum that depends on every byte. -/
def weightedSum : Crc := fun bytes => UInt32.ofNat (bytes.foldl (fun sum byte => 7 * sum + byte.toNat) 1)

def changedRecord : Bytes := (physical weightedSum (.full, [2])).set 7 9

theorem changedRecord_refused (i : Nat) : ¬Accepted weightedSum ((changedRecord.drop i).take (kBlockSize - i)) := by
  intro accepted
  have header := accepted.header
  rw [length_take, length_drop, show changedRecord.length = 8 by decide +kernel, kHeaderSize] at header
  have only : ∀ i < 2, ¬Accepted weightedSum ((changedRecord.drop i).take (kBlockSize - i)) := by decide +kernel
  exact only i (by omega) accepted

section

variable {record : Bytes} (whole : kHeaderSize + record.length = kBlockSize)

include whole

theorem addRecords_twoBlocks (crc : Crc) : (addRecords crc [record, [2]] ⟨[], 0⟩).dest =
    physical crc (.full, record) ++ physical crc (.full, [2]) := by
  have fits : 0 + kHeaderSize + record.length = kBlockSize := by rw [Nat.zero_add, whole]
  simp only [addRecords, foldl_cons, foldl_nil, @addRecord_fits crc ⟨[], 0⟩ record fits.le, fits, nil_append]
  simp [addRecord, addRecordLoop, switchBlock, emitPhysicalRecord, plainFile, physical, kBlockSize, kHeaderSize,
    fragmentType]

theorem layout_twoBlocks : layout 0 [record, [2]] =
    [(record, [(0, .full, record)]), ([2], [(kBlockSize, .full, [2])])] := by
  have start : nextOffset 0 = 0 := rfl
  have all : record.length ≤ kBlockSize - 0 % kBlockSize - kHeaderSize := by
    rw [Nat.zero_mod]
    omega
  have ends : sizeAfter 0 [(0, (.full, record))] = kBlockSize := by
    simp [sizeAfter, fragmentEnd, whole]
  simp only [layout, fragmentsOf, fragmentsFrom, start, all, take_of_length_le all, drop_eq_nil_of_le all, if_true,
    decide_true, show fragmentType true true = .full from rfl, ends]
  rfl

end

/-- The second of two blocks is damaged.  What is in the first is returned. -/
theorem readRecord_damaged_second : ∃ returned last,
    Stream.Yields (Reader.readRecord weightedSum true)
      (.start (physical weightedSum (.full, replicate 32761 1) ++ changedRecord)) returned last ∧
    returned.Sublist [replicate 32761 1, [2]] ∧ [replicate 32761 1].Sublist returned := by
  have whole : kHeaderSize + (replicate 32761 (1 : UInt8)).length = kBlockSize := by rw [length_replicate]; rfl
  generalize replicate 32761 (1 : UInt8) = record at whole ⊢
  have length : (physical weightedSum (.full, record)).length = kBlockSize := by rw [physical_length, whole]
  have damaged := readRecord_damaged weightedSum [record, [2]] (physical weightedSum (.full, record) ++ changedRecord) 1
  rw [addRecords_twoBlocks whole, layout_twoBlocks whole] at damaged
  have kept : (([(record, [(0, (.full, record))]), ([2], [(kBlockSize, .full, [2])])] :
      List (Bytes × List PlacedFragment)).filter fun entry => ∀ p ∈ entry.2, p.1 / kBlockSize ≠ 1).map (·.1) =
        [record] := by
    simp [kBlockSize]
  rw [kept] at damaged
  apply damaged
  · simp only [length_append]
    rfl
  · intro i elsewhere
    by_cases first : i < kBlockSize
    · rw [getElem?_append_left (length ▸ first), getElem?_append_left (length ▸ first)]
    · have beyond : kBlockSize + 8 ≤ i := by
        simp only [kBlockSize] at elsewhere first ⊢
        omega
      have ends : ∀ rest : Bytes, rest.length = 8 → (physical weightedSum (.full, record) ++ rest)[i]? = none := by
        intro rest short
        exact getElem?_eq_none (by rw [length_append, length, short]; exact beyond)
      rw [ends _ rfl, ends _ rfl]
  · intro o inBlock accepted
    obtain ⟨i, rfl⟩ : ∃ i, o = kBlockSize + i := ⟨o - kBlockSize, by simp only [kBlockSize] at inBlock ⊢; omega⟩
    have small : i < kBlockSize := by
      simp only [kBlockSize] at inBlock ⊢
      omega
    have dropped : (physical weightedSum (.full, record) ++ changedRecord).drop (kBlockSize + i) =
        changedRecord.drop i := by
      rw [← length, drop_append]
      simp
    rw [dropped, Nat.add_mod_left, Nat.mod_eq_of_lt small] at accepted
    exact absurd accepted (changedRecord_refused i)

end Elsm.Log
