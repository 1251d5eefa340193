import Elsm.Log.Reader

/-!
# The format of log files

`Framed` describes the bytes of a log file by the physical records in them.  A file of whole
records may be followed by a part of one, which is what a crash of the writer leaves.  The
reader finds exactly the whole records (`Framed.reads`).
-/

namespace Elsm.Log

open List

/-- A fragment: a physical record without its header. -/
abbrev Fragment := RecordType × Bytes

variable (crc : Crc)

def physical (fragment : Fragment) : Bytes := header crc fragment.1 fragment.2 ++ fragment.2

theorem header_length (t : RecordType) (pl : Bytes) : (header crc t pl).length = kHeaderSize := rfl

theorem physical_length (fr : Fragment) : (physical crc fr).length = kHeaderSize + fr.2.length := by
  rw [physical, length_append, header_length]

/-- The bytes from the offset in a block on hold the fragments.  Unless they have to be whole, they
may end in the middle of one more. -/
inductive Framed (whole : Bool) : Nat → Bytes → List Fragment → Prop
  | nil (offset : Nat) : Framed whole offset [] []
  /-- A trailer that has not been written to its end. -/
  | trailer {offset : Nat} {zeros : Bytes} (few : kBlockSize < offset + kHeaderSize)
      (fits : offset + zeros.length ≤ kBlockSize) : Framed whole offset zeros []
  | fill {offset : Nat} {zeros rest : Bytes} {fragments : List Fragment}
      (few : kBlockSize < offset + kHeaderSize) (full : offset + zeros.length = kBlockSize)
      (others : Framed whole 0 rest fragments) : Framed whole offset (zeros ++ rest) fragments
  | record {offset : Nat} {fragment : Fragment} {rest : Bytes} {fragments : List Fragment}
      (fits : offset + kHeaderSize + fragment.2.length ≤ kBlockSize)
      (others : Framed whole (offset + kHeaderSize + fragment.2.length) rest fragments) :
      Framed whole offset (physical crc fragment ++ rest) (fragment :: fragments)
  | torn {offset cut : Nat} {fragment : Fragment} (notWhole : whole = false)
      (fits : offset + kHeaderSize + fragment.2.length ≤ kBlockSize)
      (short : cut < kHeaderSize + fragment.2.length) : Framed whole offset ((physical crc fragment).take cut) []

variable {crc} {fragments : List Fragment} {whole : Bool}

theorem Framed.nothing {o : Nat} (framed : Framed crc whole o [] fragments) : fragments = [] := by
  generalize isEmpty : ([] : Bytes) = bytes at framed
  induction framed with
  | nil | trailer | torn => rfl
  | fill few full others ih =>
    obtain ⟨_, isEmpty⟩ := append_eq_nil_iff.mp isEmpty.symm
    exact ih isEmpty.symm
  | record fits others ih =>
    have len := congrArg length isEmpty
    rw [length_append, physical_length] at len
    simp [kHeaderSize] at len
    omega

variable {bytes : Bytes}

theorem Framed.atEnd (framed : Framed crc whole 0 bytes fragments) : Framed crc whole kBlockSize bytes fragments :=
  @Framed.fill crc whole kBlockSize [] bytes fragments (by decide) rfl framed

theorem Framed.atStart (framed : Framed crc whole kBlockSize bytes fragments) : Framed crc whole 0 bytes fragments := by
  generalize isEnd : kBlockSize = offset at framed
  cases framed with
  | nil => exact .nil 0
  | trailer few fits =>
    have isEmpty : bytes = [] := length_eq_zero_iff.mp (by omega)
    exact isEmpty ▸ .nil 0
  | fill few full others =>
    rename_i zeros rest
    have isEmpty : zeros = [] := length_eq_zero_iff.mp (by omega)
    rw [isEmpty]
    exact others
  | record fits | torn _ fits =>
    simp only [kHeaderSize] at fits
    omega

theorem Framed.append {o next : Nat} {more : Bytes} {others : List Fragment}
    (framed : Framed crc true o bytes fragments) (follows : Framed crc whole next more others)
    (inB : o ≤ kBlockSize) (nextInBlock : next ≤ kBlockSize)
    (here : (o + bytes.length) % kBlockSize = next % kBlockSize) :
    Framed crc whole o (bytes ++ more) (fragments ++ others) := by
  have meets : ∀ {place : Nat}, place ≤ kBlockSize → place % kBlockSize = next % kBlockSize →
      Framed crc whole place more others := by
    intro place placed eq
    have either : place = next ∨ (place = 0 ∧ next = kBlockSize) ∨ (place = kBlockSize ∧ next = 0) := by
      simp only [kBlockSize] at *
      omega
    rcases either with rfl | ⟨rfl, rfl⟩ | ⟨rfl, rfl⟩
    · exact follows
    · exact follows.atStart
    · exact follows.atEnd
  induction framed with
  | nil o => exact meets inB here
  | trailer few fits =>
    rename_i o zeros
    have there := meets fits here
    cases there with
    | nil => simpa using .trailer few fits
    | trailer _ fits' =>
      apply Framed.trailer few
      rw [length_append]
      omega
    | fill _ full' after =>
      rw [← append_assoc]
      apply Framed.fill few ?_ after
      rw [length_append]
      omega
    | record | torn => omega
  | fill few full _ ih =>
    rw [append_assoc]
    apply Framed.fill few full (ih (Nat.zero_le _) ?_)
    rw [← here, length_append, ← Nat.add_assoc, full, Nat.add_mod_left, Nat.zero_add]
  | record fits _ ih =>
    rw [append_assoc]
    apply Framed.record fits (ih fits ?_)
    rw [← here, length_append, physical_length]
    congr 1
    omega
  | torn notWhole => cases notWhole

/-! ## The reader on such bytes -/

/-- The reader is at the offset in a block and has the bytes before it. -/
structure At (r : Reader) (offset : Nat) (bytes : Bytes) : Prop where
  bytes : r.buffer ++ r.rest = bytes
  inBlock : offset + r.buffer.length ≤ kBlockSize
  atEof : r.eof = true → r.rest = []
  notEof : r.eof = false → offset + r.buffer.length = kBlockSize

theorem start_at (bytes : Bytes) : At (.start bytes) kBlockSize bytes :=
  ⟨rfl, le_rfl, nofun, fun _ => rfl⟩

theorem refill_at (r : Reader) : At r.refill 0 r.rest where
  bytes := take_append_drop _ _
  inBlock := by
    rw [Nat.zero_add]
    exact length_take_le _ _
  atEof isEof := by
    have short := of_decide_eq_true isEof
    rw [length_take] at short
    exact drop_eq_nil_of_le (by omega)
  notEof isEof := by
    have full := of_decide_eq_false isEof
    have most := length_take_le kBlockSize r.rest
    change 0 + (r.rest.take kBlockSize).length = kBlockSize
    omega

theorem refill_enough (r : Reader) : ¬(r.refill.buffer.length < kHeaderSize ∧ ¬r.refill.eof) := by
  rintro ⟨few, isEof⟩
  have full := (refill_at r).notEof (Bool.eq_false_iff.mpr isEof)
  simp only [kBlockSize, kHeaderSize] at full few
  omega

variable {r : Reader}

theorem readPhysicalRecord_refill (checksum : Bool) (few : r.buffer.length < kHeaderSize)
    (notEof : r.eof = false) : r.readPhysicalRecord crc checksum = r.refill.readPhysicalRecord crc checksum := by
  have refills : r.buffer.length < kHeaderSize ∧ ¬r.eof := ⟨few, by simp [notEof]⟩
  simp only [Reader.readPhysicalRecord, if_pos refills, if_neg (refill_enough r)]

theorem readPhysicalRecord_parse (checksum : Bool) (le : kHeaderSize ≤ r.buffer.length) :
    r.readPhysicalRecord crc checksum = r.parsePhysicalRecord crc checksum := by
  have notFew : ¬r.buffer.length < kHeaderSize := by omega
  simp only [Reader.readPhysicalRecord, notFew, false_and, if_false]

theorem RecordType.typeOf_code (t : RecordType) : Reader.typeOf (UInt8.ofNat t.code) = t.code := by
  cases t <;> rfl

theorem length_bytes {n : Nat} (fits : n < 65536) :
    (UInt8.ofNat n).toNat + 256 * (UInt8.ofNat (n / 256)).toNat = n := by
  rw [UInt8.toNat_ofNat', UInt8.toNat_ofNat']
  omega

theorem parse_header {t : RecordType} {pl rest : Bytes} (short : pl.length < 65536)
    (isBuffer : r.buffer = header crc t pl ++ rest) :
    (r.buffer.getD 4 0).toNat + 256 * (r.buffer.getD 5 0).toNat = pl.length ∧
      Reader.typeOf (r.buffer.getD 6 0) = t.code := by
  rw [isBuffer]
  exact ⟨length_bytes short, t.typeOf_code⟩

theorem parse_physical {fr : Fragment} {rest : Bytes} (checksum : Bool)
    (short : fr.2.length < 65536) (isBuffer : r.buffer = physical crc fr ++ rest) :
    r.parsePhysicalRecord crc checksum = (fr.1.code, fr.2, { r with buffer := rest }) := by
  obtain ⟨t, pl⟩ := fr
  have isHeader : r.buffer = header crc t pl ++ (pl ++ rest) := by
    rw [isBuffer, physical, append_assoc]
  obtain ⟨isLength, isType⟩ := parse_header short isHeader
  have le : ¬r.buffer.length < kHeaderSize + pl.length := by
    have len := physical_length crc (t, pl)
    rw [isBuffer, length_append]
    simp only at len
    omega
  have notZero : ¬(t.code = 0 ∧ pl.length = 0) := by cases t <;> simp [RecordType.code]
  have afterHeader : r.buffer.drop kHeaderSize = pl ++ rest := by
    rw [isHeader, drop_left' (header_length crc t pl)]
  have checked : (r.buffer.drop 6).take (1 + pl.length) = UInt8.ofNat t.code :: pl := by
    have fromType : r.buffer.drop 6 = UInt8.ofNat t.code :: (pl ++ rest) := by
      rw [isHeader]
      rfl
    rw [fromType, Nat.add_comm, take_succ_cons, take_left' rfl]
  have isCrc : Crc32c.unmask (UInt32.ofNat (decodeFixed32 r.buffer)) = crc (UInt8.ofNat t.code :: pl) := by
    rw [isHeader, header, append_assoc, decodeFixed32_encodeFixed32 (UInt32.toNat_lt _), UInt32.ofNat_toNat,
      Crc32c.unmask_mask]
  have afterAll : r.buffer.drop (kHeaderSize + pl.length) = rest := by
    rw [← drop_drop, afterHeader, drop_left' rfl]
  simp only [Reader.parsePhysicalRecord, isLength, isType, if_neg le, if_neg notZero, checked, isCrc, ne_eq,
    not_true_eq_false, and_false, if_false, afterHeader, afterAll, take_left' rfl]

variable {o : Nat}

theorem At.buffer_eq (isAt : At r o bytes) : r.buffer = bytes.take (kBlockSize - o) := by
  have inB := isAt.inBlock
  rw [← isAt.bytes]
  cases isEof : r.eof with
  | true =>
    rw [isAt.atEof isEof, append_nil, take_of_length_le]
    omega
  | false =>
    have full := isAt.notEof isEof
    rw [take_left' (by omega)]

theorem At.rest_eq (isAt : At r o bytes) : r.rest = bytes.drop (kBlockSize - o) := by
  have whole := isAt.bytes
  rw [← take_append_drop (kBlockSize - o) bytes, isAt.buffer_eq] at whole
  exact append_cancel_left whole

theorem At.fragment {fr : Fragment} {rest : Bytes} (isAt : At r o (physical crc fr ++ rest))
    (fits : o + kHeaderSize + fr.2.length ≤ kBlockSize) (checksum : Bool) :
    ∃ r', r.readPhysicalRecord crc checksum = (fr.1.code, fr.2, r') ∧ At r' (o + kHeaderSize + fr.2.length) rest ∧
      r'.reports = r.reports := by
  have len := physical_length crc fr
  obtain ⟨tail, isBuffer⟩ : physical crc fr <+: r.buffer := by
    rw [isAt.buffer_eq]
    exact prefix_take_iff.mpr ⟨prefix_append .., by omega⟩
  have isRest : tail ++ r.rest = rest := by
    have total := isAt.bytes
    rw [← isBuffer, append_assoc] at total
    exact append_cancel_left total
  have short : fr.2.length < 65536 := by
    simp only [kBlockSize] at fits
    omega
  have inBuffer : r.buffer.length = kHeaderSize + fr.2.length + tail.length := by
    rw [← isBuffer, length_append, len]
  have inB := isAt.inBlock
  refine ⟨{ r with buffer := tail }, ?_, ⟨isRest, ?_, isAt.atEof, fun isEof => ?_⟩, rfl⟩
  · rw [readPhysicalRecord_parse checksum (by omega), parse_physical checksum short isBuffer.symm]
  · change _ + tail.length ≤ _
    omega
  · have full := isAt.notEof isEof
    change _ + tail.length = _
    omega

/-! ## What `ReadPhysicalRecord` returns -/

/-- The answers of `ReadPhysicalRecord` up to the end of the file: the fragments before the first bad record, and those
between the others.  Only bad records are reported. -/
inductive Reads (crc : Crc) (checksum : Bool) : Reader → List Fragment → List (List Fragment) → Prop
  | eof {r r' : Reader} (reads : r.readPhysicalRecord crc checksum = (kEof, [], r')) (silent : r'.reports = r.reports) :
      Reads crc checksum r [] []
  | fragment {r r' : Reader} {fragment : Fragment} {fragments : List Fragment} {others : List (List Fragment)}
      (reads : r.readPhysicalRecord crc checksum = (fragment.1.code, fragment.2, r'))
      (silent : r'.reports = r.reports) (next : Reads crc checksum r' fragments others) :
      Reads crc checksum r (fragment :: fragments) others
  | bad {r r' : Reader} {fragments : List Fragment} {others : List (List Fragment)}
      (reads : r.readPhysicalRecord crc checksum = (kBadRecord, [], r'))
      (next : Reads crc checksum r' fragments others) : Reads crc checksum r [] (fragments :: others)

variable {checksum : Bool} {others : List (List Fragment)}

theorem Reads.of_same {r₁ : Reader} (answers : Reads crc checksum r₁ fragments others)
    (eq : r.readPhysicalRecord crc checksum = r₁.readPhysicalRecord crc checksum)
    (sameReports : r₁.reports = r.reports) : Reads crc checksum r fragments others := by
  cases answers with
  | eof reads silent => exact .eof (eq.trans reads) (silent.trans sameReports)
  | fragment reads silent next => exact .fragment (eq.trans reads) (silent.trans sameReports) next
  | bad reads next => exact .bad (eq.trans reads) next

theorem Reads.of_eof (few : r.buffer.length < kHeaderSize) (isRest : r.rest = []) : Reads crc checksum r [] [] := by
  cases isEof : r.eof with
  | true =>
    have reads : r.readPhysicalRecord crc checksum = (kEof, [], { r with buffer := [] }) := by
      simp [Reader.readPhysicalRecord, isEof, few]
    exact .eof reads rfl
  | false =>
    have nothing : r.refill.buffer.length < kHeaderSize := by simp [Reader.refill, isRest, kHeaderSize]
    have reads := @readPhysicalRecord_refill crc r checksum few isEof
    simp only [Reader.readPhysicalRecord, if_neg (refill_enough r), if_pos nothing] at reads
    exact .eof reads rfl

/-- The reader leaves a block without room for a header, unless the file ends there. -/
theorem At.trailer (isAt : At r o bytes) (few : kBlockSize < o + kHeaderSize) :
    (bytes.drop (kBlockSize - o) = [] ∧ Reads crc checksum r [] []) ∨
      r.readPhysicalRecord crc checksum = r.refill.readPhysicalRecord crc checksum ∧
        At r.refill 0 (bytes.drop (kBlockSize - o)) := by
  have fewLeft : r.buffer.length < kHeaderSize := by
    have inB := isAt.inBlock
    omega
  rw [← isAt.rest_eq]
  cases isEof : r.eof with
  | true =>
    have isRest := isAt.atEof isEof
    exact .inl ⟨isRest, .of_eof fewLeft isRest⟩
  | false => exact .inr ⟨readPhysicalRecord_refill checksum fewLeft isEof, refill_at r⟩

/-- In bytes without damage there are only fragments. -/
theorem Framed.reads (framed : Framed crc whole o bytes fragments) (isAt : At r o bytes) (checksum : Bool) :
    Reads crc checksum r fragments [] := by
  induction framed generalizing r with
  | nil =>
    obtain ⟨isBuffer, isRest⟩ := append_eq_nil_iff.mp isAt.bytes
    exact .of_eof (by rw [isBuffer]; decide) isRest
  | trailer few fits =>
    have inB := isAt.inBlock
    exact .of_eof (by omega) (isAt.rest_eq.trans (drop_eq_nil_of_le (by omega)))
  | fill few full others ih =>
    rename_i o zeros rest fragments
    have isNext : (zeros ++ rest).drop (kBlockSize - o) = rest := drop_left' (by omega)
    obtain ⟨isNothing, atEnd⟩ | ⟨same, atNext⟩ := @At.trailer crc _ _ _ checksum isAt few
    · obtain rfl := isNext.symm.trans isNothing
      obtain rfl := others.nothing
      exact atEnd
    · exact (ih (isNext ▸ atNext)).of_same same rfl
  | record fits others ih =>
    obtain ⟨r', reads, isAt', silent⟩ := isAt.fragment fits checksum
    exact .fragment reads silent (ih isAt')
  | torn notWhole fits short =>
    rename_i o cut fr
    have len := physical_length crc fr
    have total := congrArg length isAt.bytes
    rw [length_append, length_take] at total
    have isEof : r.eof = true := by
      by_contra notEof
      have full := isAt.notEof (Bool.eq_false_iff.mpr notEof)
      omega
    have isRest := isAt.atEof isEof
    by_cases few : r.buffer.length < kHeaderSize
    · exact .of_eof few isRest
    have isBuffer : r.buffer = header crc fr.1 fr.2 ++ fr.2.take (cut - kHeaderSize) := by
      rw [← append_nil r.buffer, ← isRest, isAt.bytes, physical, take_append,
        take_of_length_le (by rw [header_length]; omega), header_length]
    have isShort : fr.2.length < 65536 := by
      simp only [kBlockSize] at fits
      omega
    obtain ⟨isLength, _⟩ := parse_header isShort isBuffer
    have asks : r.buffer.length < kHeaderSize + fr.2.length := by omega
    have ends : r.parsePhysicalRecord crc checksum = (kEof, [], { r with buffer := [] }) := by
      simp only [Reader.parsePhysicalRecord, isLength, if_pos asks, isEof, if_true]
    exact .eof ((readPhysicalRecord_parse checksum (by omega)).trans ends) rfl

end Elsm.Log
