import Elsm.Format.Comparator
import Mathlib.Data.List.DropRight
import Mathlib.Data.Nat.Digits.Defs

/-!
# File names (`db/filename.cpp`, `util/logging.cpp`)

The names of the files of a database, without the name of its directory, and the parser that
takes them apart again.  `parseFileName` gives back the number and the type of every name the
database makes.
-/

namespace Elsm

open List

/-- The bytes of a text in the basic character set. -/
def ascii (text : List Char) : Bytes := text.map fun c => UInt8.ofNat c.toNat

def toText (bytes : Bytes) : String := String.ofList (bytes.map fun c => Char.ofNat c.toNat)

/-! ## Decimal numbers -/

def digitByte (d : Nat) : UInt8 := UInt8.ofNat (48 + d)

/-- `%06llu` -/
def decimal6 (n : Nat) : Bytes :=
  let digits := (Nat.digits 10 n).reverse.map digitByte
  replicate (6 - digits.length) (digitByte 0) ++ digits

def kMaxUint64 : Nat := 2 ^ 64 - 1

/-- The loop of `ConsumeDecimalNumber`, with the value and the number of digits so far. -/
def consumeDigits (v digits : Nat) : Bytes → Option (Nat × Nat × Bytes)
  | [] => some (v, digits, [])
  | c :: rest =>
    if 48 ≤ c ∧ c ≤ 57 then
      let delta := c.toNat - 48
      -- overflow
      if kMaxUint64 / 10 < v ∨ (v = kMaxUint64 / 10 ∧ kMaxUint64 % 10 < delta) then none
      else consumeDigits (v * 10 + delta) (digits + 1) rest
    else some (v, digits, c :: rest)

def consumeDecimalNumber (text : Bytes) : Option (Nat × Bytes) :=
  match consumeDigits 0 0 text with
  | some (v, digits, rest) => if 0 < digits then some (v, rest) else none
  | none => none

def isDigit (c : UInt8) : Bool := 48 ≤ c ∧ c ≤ 57

theorem digitByte_toNat {d : Nat} (small : d < 10) : (digitByte d).toNat = 48 + d := by
  rw [digitByte, UInt8.toNat_ofNat']
  omega

theorem digitByte_isDigit {d : Nat} (small : d < 10) : isDigit (digitByte d) := by
  rw [isDigit, decide_eq_true_eq, UInt8.le_iff_toNat_le, UInt8.le_iff_toNat_le, digitByte_toNat small]
  change 48 ≤ 48 + d ∧ 48 + d ≤ 57
  omega

/-- The value of digits, the first of which weighs most, that follow a number. -/
def appendDigits (v : Nat) (digits : List Nat) : Nat := digits.foldl (fun v d => v * 10 + d) v

theorem le_appendDigits (v : Nat) (digits : List Nat) : v ≤ appendDigits v digits := by
  induction digits generalizing v with
  | nil => exact le_rfl
  | cons d rest ih =>
    calc v ≤ v * 10 + d := by omega
      _ ≤ appendDigits (v * 10 + d) rest := ih _

def digitsOf (text : Bytes) : List Nat := text.map fun c => c.toNat - 48

/-- The bytes are digits, and they write the number. -/
structure Denotes (text : Bytes) (number : Nat) : Prop where
  nonempty : text ≠ []
  digits : ∀ c ∈ text, isDigit c
  value : appendDigits 0 (digitsOf text) = number

variable {text rest : Bytes} {n : Nat}

theorem consumeDigits_append (digits : ∀ c ∈ text, isDigit c) (stops : rest.dropWhile isDigit = rest) (count : Nat)
    {v : Nat} (inRange : v ≤ kMaxUint64) :
    consumeDigits v count (text ++ rest) = if appendDigits v (digitsOf text) ≤ kMaxUint64 then
      some (appendDigits v (digitsOf text), count + text.length, rest) else none := by
  induction text generalizing v count with
  | nil =>
    refine Eq.trans ?_ (if_pos inRange).symm
    cases rest with
    | nil => rfl
    | cons c rest =>
      have other : ¬isDigit c := dropWhile_eq_self_iff.mp stops (Nat.succ_pos _)
      rw [nil_append, consumeDigits, if_neg fun digit => other (decide_eq_true digit)]
      rfl
  | cons c text ih =>
    have digit : 48 ≤ c ∧ c ≤ 57 := of_decide_eq_true (digits c mem_cons_self)
    have small : c.toNat ≤ 57 := UInt8.le_iff_toNat_le.mp digit.2
    have grows := le_appendDigits (v * 10 + (c.toNat - 48)) (digitsOf text)
    rw [cons_append, consumeDigits, if_pos digit, digitsOf, map_cons, appendDigits, foldl_cons, ← appendDigits,
      ← digitsOf]
    dsimp only
    split
    case isTrue overflow => rw [if_neg (by omega)]
    case isFalse fits =>
      rw [ih (forall_mem_cons.mp digits).2 _ (by omega), length_cons, Nat.add_right_comm, Nat.add_assoc]

theorem Denotes.consumed (denotes : Denotes text n) (stops : rest.dropWhile isDigit = rest) :
    consumeDecimalNumber (text ++ rest) = if n ≤ kMaxUint64 then some (n, rest) else none := by
  rw [consumeDecimalNumber, consumeDigits_append denotes.digits stops 0 (Nat.zero_le _), denotes.value]
  by_cases fits : n ≤ kMaxUint64
  · simp [fits, length_pos_of_ne_nil denotes.nonempty]
  · simp [fits]

/-- A number that is read is written at the front of the text. -/
theorem denotes_of_consumed (consumed : consumeDecimalNumber text = some (n, rest)) :
    n ≤ kMaxUint64 ∧ ∃ digits, Denotes digits n ∧ text = digits ++ rest := by
  have split := (takeWhile_append_dropWhile (p := isDigit) (l := text)).symm
  have digits : ∀ c ∈ text.takeWhile isDigit, isDigit c := fun c => mem_takeWhile_imp
  rw [consumeDecimalNumber, split, consumeDigits_append digits (dropWhile_idempotent _ _) 0 (Nat.zero_le _)] at consumed
  by_cases fits : appendDigits 0 (digitsOf (text.takeWhile isDigit)) ≤ kMaxUint64
  · simp only [fits, if_true, Nat.zero_add] at consumed
    split at consumed
    case isTrue some =>
      cases consumed
      exact ⟨fits, _, ⟨ne_nil_of_length_pos some, digits, rfl⟩, split⟩
    case isFalse => cases consumed
  · simp [fits] at consumed

theorem appendDigits_zeros (count : Nat) (digits : List Nat) :
    appendDigits 0 (replicate count 0 ++ digits) = appendDigits 0 digits := by
  induction count with
  | zero => rfl
  | succ count ih => exact ih

theorem appendDigits_reverse (digits : List Nat) : appendDigits 0 digits.reverse = Nat.ofDigits 10 digits := by
  induction digits with
  | nil => rfl
  | cons d digits ih =>
    rw [appendDigits, reverse_cons, foldl_append, foldl_cons, foldl_nil]
    rw [appendDigits] at ih
    rw [ih, Nat.ofDigits_cons]
    omega

theorem digitsOf_digitBytes {digits : List Nat} (small : ∀ d ∈ digits, d < 10) :
    digitsOf (digits.map digitByte) = digits := by
  rw [digitsOf, map_map]
  refine (map_congr_left fun d mem => ?_).trans (map_id digits)
  rw [Function.comp_apply, digitByte_toNat (small d mem), Nat.add_sub_cancel_left, id]

theorem denotes_decimal6 (n : Nat) : Denotes (decimal6 n) n := by
  let padding := 6 - ((Nat.digits 10 n).reverse.map digitByte).length
  have isText : decimal6 n = (replicate padding 0 ++ (Nat.digits 10 n).reverse).map digitByte := by
    simp only [decimal6, padding, map_append, map_replicate]
  have small : ∀ d ∈ replicate padding 0 ++ (Nat.digits 10 n).reverse, d < 10 := by
    intro d mem
    cases mem_append.mp mem with
    | inl zero =>
      rw [(mem_replicate.mp zero).2]
      omega
    | inr digit => exact Nat.digits_lt_base (by omega) (mem_reverse.mp digit)
  rw [isText]
  refine ⟨ne_nil_of_length_pos ?_, fun c mem => ?_, ?_⟩
  · simp only [padding, length_append, length_replicate, length_map, length_reverse]
    omega
  · obtain ⟨d, isDigit, rfl⟩ := mem_map.mp mem
    exact digitByte_isDigit (small d isDigit)
  · rw [digitsOf_digitBytes small, appendDigits_zeros, appendDigits_reverse, Nat.ofDigits_digits]

theorem decimal6_inj {m : Nat} (eq : decimal6 m = decimal6 n) : m = n :=
  (denotes_decimal6 m).value.symm.trans (eq ▸ (denotes_decimal6 n).value)

/-! ## Names -/

inductive FileType where
  | logFile
  | dbLockFile
  | tableFile
  | descriptorFile
  | currentFile
  | tempFile
  | infoLogFile
deriving DecidableEq

def makeFileName (number : Nat) (suffix : List Char) : Bytes := decimal6 number ++ ascii ('.' :: suffix)

def logFileName (number : Nat) : Bytes := makeFileName number ['l', 'o', 'g']

def tableFileName (number : Nat) : Bytes := makeFileName number ['l', 'd', 'b']

def sstTableFileName (number : Nat) : Bytes := makeFileName number ['s', 's', 't']

def tempFileName (number : Nat) : Bytes := makeFileName number ['d', 'b', 't', 'm', 'p']

def manifestDash : Bytes := ascii ['M', 'A', 'N', 'I', 'F', 'E', 'S', 'T', '-']

def descriptorFileName (number : Nat) : Bytes := manifestDash ++ decimal6 number

def currentFileName : Bytes := ascii ['C', 'U', 'R', 'R', 'E', 'N', 'T']

def lockFileName : Bytes := ascii ['L', 'O', 'C', 'K']

def infoLogFileName : Bytes := ascii ['L', 'O', 'G']

def oldInfoLogFileName : Bytes := ascii ['L', 'O', 'G', '.', 'o', 'l', 'd']

/-- The type that `ParseFileName` reads off what follows the number. -/
def suffixType (suffix : Bytes) : Option FileType :=
  if suffix = ascii ['.', 'l', 'o', 'g'] then some .logFile
  else if suffix = ascii ['.', 's', 's', 't'] ∨ suffix = ascii ['.', 'l', 'd', 'b'] then some .tableFile
  else if suffix = ascii ['.', 'd', 'b', 't', 'm', 'p'] then some .tempFile
  else none

/-- The branches of `ParseFileName` for the names that hold a number. -/
def parseNumbered (fname : Bytes) : Option (Nat × FileType) :=
  if manifestDash.isPrefixOf fname then
    match consumeDecimalNumber (fname.drop manifestDash.length) with
    | some (num, []) => some (num, .descriptorFile)
    | _ => none
  else
    match consumeDecimalNumber fname with
    | some (num, rest) => (suffixType rest).map fun type => (num, type)
    | none => none

def parseFileName (fname : Bytes) : Option (Nat × FileType) :=
  if fname = currentFileName then some (0, .currentFile)
  else if fname = lockFileName then some (0, .dbLockFile)
  else if fname = infoLogFileName ∨ fname = oldInfoLogFileName then some (0, .infoLogFile)
  else parseNumbered fname

theorem ne_of_isDigit {c letter : UInt8} (digit : isDigit c) (isLetter : 57 < letter) : c ≠ letter := by
  rintro rfl
  exact UInt8.not_le.mpr isLetter (of_decide_eq_true digit).2

/-- The fixed names all start with a `C` or an `L`. -/
theorem parseFileName_cons {c : UInt8} {rest : Bytes} (notC : c ≠ 67) (notL : c ≠ 76) :
    parseFileName (c :: rest) = parseNumbered (c :: rest) := by
  have other : ∀ {letter : UInt8} {text : Bytes}, c ≠ letter → c :: rest ≠ letter :: text :=
    fun differs eq => differs (List.cons.inj eq).1
  have notCurrent : c :: rest ≠ currentFileName := other notC
  have notLock : c :: rest ≠ lockFileName := other notL
  have notLog : c :: rest ≠ infoLogFileName := other notL
  have notOldLog : c :: rest ≠ oldInfoLogFileName := other notL
  rw [parseFileName, if_neg notCurrent, if_neg notLock, if_neg (not_or.mpr ⟨notLog, notOldLog⟩)]

theorem Denotes.cons (denotes : Denotes text n) : ∃ c rest, isDigit c ∧ text = c :: rest := by
  obtain ⟨c, rest, rfl⟩ := exists_cons_of_ne_nil denotes.nonempty
  exact ⟨c, rest, denotes.digits c mem_cons_self, rfl⟩

theorem Denotes.parseFileName (denotes : Denotes text n) (stops : rest.dropWhile isDigit = rest) :
    parseFileName (text ++ rest) = if n ≤ kMaxUint64 then (suffixType rest).map fun type => (n, type) else none := by
  obtain ⟨c, left, digit, starts⟩ := denotes.cons
  have notManifest : ¬manifestDash.isPrefixOf (text ++ rest) := by
    intro isManifest
    obtain ⟨tail, isText⟩ := isPrefixOf_iff_prefix.mp isManifest
    rw [starts] at isText
    exact ne_of_isDigit digit (by decide) (List.cons.inj isText).1.symm
  have skipsFixed : Elsm.parseFileName (text ++ rest) = parseNumbered (text ++ rest) := by
    rw [starts, cons_append, parseFileName_cons (ne_of_isDigit digit (by decide)) (ne_of_isDigit digit (by decide))]
  rw [skipsFixed, parseNumbered, if_neg notManifest, denotes.consumed stops]
  by_cases fits : n ≤ kMaxUint64
  · simp only [fits, if_true]
  · simp only [fits, if_false]

theorem parseFileName_manifestDash (text : Bytes) : parseFileName (manifestDash ++ text) =
      match consumeDecimalNumber text with
      | some (num, []) => some (num, .descriptorFile)
      | _ => none := by
  have isManifest : manifestDash.isPrefixOf (manifestDash ++ text) := isPrefixOf_iff_prefix.mpr (prefix_append _ _)
  have skipsFixed : parseFileName (manifestDash ++ text) = parseNumbered (manifestDash ++ text) :=
    @parseFileName_cons 77 _ (by decide) (by decide)
  rw [skipsFixed, parseNumbered, if_pos isManifest, drop_left]

theorem Denotes.parseFileName_descriptor (denotes : Denotes text n) :
    Elsm.parseFileName (manifestDash ++ text) = if n ≤ kMaxUint64 then some (n, .descriptorFile) else none := by
  rw [parseFileName_manifestDash, ← append_nil text, denotes.consumed rfl]
  by_cases fits : n ≤ kMaxUint64
  · simp only [fits, if_true]
  · simp only [fits, if_false]

variable {suffix : List Char}

theorem parseFileName_makeFileName (fits : n ≤ kMaxUint64) {type : FileType}
    (isType : suffixType (ascii ('.' :: suffix)) = some type) :
    parseFileName (makeFileName n suffix) = some (n, type) := by
  rw [makeFileName, (denotes_decimal6 n).parseFileName rfl, if_pos fits, isType]
  rfl

/-- A number too large for the parser makes it refuse the name, not mistake it. -/
theorem parseFileName_makeFileName_some {parsed : Nat × FileType}
    (parses : parseFileName (makeFileName n suffix) = some parsed) :
    parsed.1 = n ∧ suffixType (ascii ('.' :: suffix)) = some parsed.2 := by
  rw [makeFileName, (denotes_decimal6 n).parseFileName rfl] at parses
  split at parses
  · obtain ⟨type, isType, rfl⟩ := Option.map_eq_some_iff.mp parses
    exact ⟨rfl, isType⟩
  · cases parses

theorem parseFileName_tableFileName (fits : n ≤ kMaxUint64) : parseFileName (tableFileName n) = some (n, .tableFile) :=
  parseFileName_makeFileName fits (by decide)

theorem parseFileName_tempFileName (fits : n ≤ kMaxUint64) : parseFileName (tempFileName n) = some (n, .tempFile) :=
  parseFileName_makeFileName fits (by decide)

theorem parseFileName_descriptorFileName_some {parsed : Nat × FileType}
    (parses : parseFileName (descriptorFileName n) = some parsed) : parsed = (n, .descriptorFile) := by
  rw [descriptorFileName, (denotes_decimal6 n).parseFileName_descriptor] at parses
  split at parses <;> cases parses
  rfl

/-! ## Distinct names -/

theorem makeFileName_inj {m : Nat} {suffix' : List Char} (eq : makeFileName m suffix = makeFileName n suffix') :
    m = n ∧ ascii ('.' :: suffix) = ascii ('.' :: suffix') := by
  have digits := congrArg (takeWhile isDigit) eq
  have rests := congrArg (dropWhile isDigit) eq
  simp only [makeFileName, takeWhile_append_of_pos (denotes_decimal6 _).digits] at digits
  simp only [makeFileName, dropWhile_append_of_pos (denotes_decimal6 _).digits] at rests
  exact ⟨decimal6_inj (append_cancel_right digits), rests⟩

theorem makeFileName_ne {letter : UInt8} (isLetter : 57 < letter) (m : Nat) (suffix : List Char) (rest : Bytes) :
    makeFileName m suffix ≠ letter :: rest := by
  obtain ⟨c, left, digit, isDigits⟩ := (denotes_decimal6 m).cons
  intro eq
  rw [makeFileName, isDigits] at eq
  exact ne_of_isDigit digit isLetter (List.cons.inj eq).1

theorem makeFileName_ne_descriptorFileName (m n : Nat) (suffix : List Char) :
    makeFileName m suffix ≠ descriptorFileName n :=
  @makeFileName_ne 77 (by decide) m suffix _

theorem descriptorFileName_ne_currentFileName (n : Nat) : descriptorFileName n ≠ currentFileName := by
  intro eq
  exact absurd (List.cons.inj eq).1 (by decide)

theorem tempFileName_ne_currentFileName (n : Nat) : tempFileName n ≠ currentFileName :=
  @makeFileName_ne 67 (by decide) n _ _

theorem descriptorFileName_inj {m : Nat} (eq : descriptorFileName m = descriptorFileName n) : m = n :=
  decimal6_inj (append_cancel_left eq)

/-! ## The names that are recognised -/

inductive NumberedName where
  | log | table | sstTable | temp | descriptor

namespace NumberedName

def fileName : NumberedName → Nat → Bytes
  | log => logFileName
  | table => tableFileName
  | sstTable => sstTableFileName
  | temp => tempFileName
  | descriptor => descriptorFileName

def type : NumberedName → FileType
  | log => .logFile
  | table | sstTable => .tableFile
  | temp => .tempFile
  | descriptor => .descriptorFile

end NumberedName

/-- The names of the files of a database, with their numbers and types. -/
inductive Recognised : Bytes → Nat → FileType → Prop
  | current : Recognised currentFileName 0 .currentFile
  | lock : Recognised lockFileName 0 .dbLockFile
  | infoLog : Recognised infoLogFileName 0 .infoLogFile
  | oldInfoLog : Recognised oldInfoLogFileName 0 .infoLogFile
  | descriptor {digits : Bytes} {n : Nat} (denotes : Denotes digits n) (fits : n < 2 ^ 64) :
    Recognised (manifestDash ++ digits) n .descriptorFile
  | log {digits : Bytes} {n : Nat} (denotes : Denotes digits n) (fits : n < 2 ^ 64) :
    Recognised (digits ++ ascii ['.', 'l', 'o', 'g']) n .logFile
  | sst {digits : Bytes} {n : Nat} (denotes : Denotes digits n) (fits : n < 2 ^ 64) :
    Recognised (digits ++ ascii ['.', 's', 's', 't']) n .tableFile
  | ldb {digits : Bytes} {n : Nat} (denotes : Denotes digits n) (fits : n < 2 ^ 64) :
    Recognised (digits ++ ascii ['.', 'l', 'd', 'b']) n .tableFile
  | dbtmp {digits : Bytes} {n : Nat} (denotes : Denotes digits n) (fits : n < 2 ^ 64) :
    Recognised (digits ++ ascii ['.', 'd', 'b', 't', 'm', 'p']) n .tempFile

theorem recognised_of_numbered {digits : Bytes} {type : FileType} (denotes : Denotes digits n) (fits : n < 2 ^ 64)
    (isType : suffixType rest = some type) : Recognised (digits ++ rest) n type := by
  rw [suffixType] at isType
  repeat' split at isType
  case isTrue isLog =>
    cases isType
    exact isLog ▸ .log denotes fits
  case isTrue isTable =>
    cases isType
    obtain isSst | isLdb := isTable
    · exact isSst ▸ .sst denotes fits
    · exact isLdb ▸ .ldb denotes fits
  case isTrue isTemp =>
    cases isType
    exact isTemp ▸ .dbtmp denotes fits
  case isFalse => cases isType

theorem recognised_of_parseFileName {type : FileType} (parses : parseFileName text = some (n, type)) :
    Recognised text n type := by
  have below : ∀ {n}, n ≤ kMaxUint64 → n < 2 ^ 64 := fun fits => Nat.lt_of_le_pred (by decide) fits
  rw [parseFileName] at parses
  split at parses
  case isTrue isCurrent =>
    cases parses
    exact isCurrent ▸ .current
  split at parses
  case isTrue isLock =>
    cases parses
    exact isLock ▸ .lock
  split at parses
  case isTrue isLog =>
    cases parses
    obtain isLog | isOldLog := isLog
    · exact isLog ▸ .infoLog
    · exact isOldLog ▸ .oldInfoLog
  rw [parseNumbered] at parses
  split at parses
  case isTrue isManifest =>
    obtain ⟨left, rfl⟩ := isPrefixOf_iff_prefix.mp isManifest
    rw [drop_left] at parses
    split at parses
    case h_1 num consumed =>
      cases parses
      obtain ⟨fits, digits, denotes, rfl⟩ := denotes_of_consumed consumed
      rw [append_nil]
      exact .descriptor denotes (below fits)
    case h_2 => cases parses
  case isFalse =>
    split at parses
    case h_1 num left consumed =>
      obtain ⟨type, isType, same⟩ := Option.map_eq_some_iff.mp parses
      cases same
      obtain ⟨fits, digits, denotes, rfl⟩ := denotes_of_consumed consumed
      exact recognised_of_numbered denotes (below fits) isType
    case h_2 => cases parses

theorem Recognised.parses {type : FileType} (recognised : Recognised text n type) :
    parseFileName text = some (n, type) := by
  have within : ∀ {n}, n < 2 ^ 64 → n ≤ kMaxUint64 := Nat.le_pred_of_lt
  cases recognised with
  | current | lock | infoLog | oldInfoLog => decide
  | descriptor denotes fits => rw [denotes.parseFileName_descriptor, if_pos (within fits)]
  | log denotes fits | sst denotes fits | ldb denotes fits | dbtmp denotes fits =>
    rw [denotes.parseFileName rfl, if_pos (within fits)]
    rfl

/-- The names that are made are read back and distinct, and no other names are read than those of the files of a
database. -/
theorem file_names_exact :
    (∀ name n, 0 < n → n < 2 ^ 64 → parseFileName (NumberedName.fileName name n) = some (n, name.type)) ∧
      (∀ name name' n n', 0 < n → n < 2 ^ 64 → 0 < n' → n' < 2 ^ 64 →
        (NumberedName.type name, n) ≠ (NumberedName.type name', n') → name.fileName n ≠ name'.fileName n') ∧
      ∀ text n type, parseFileName text = some (n, type) ↔ Recognised text n type := by
  have made : ∀ name n, n < 2 ^ 64 → parseFileName (NumberedName.fileName name n) = some (n, name.type) := by
    intro name n fits
    apply Recognised.parses
    cases name with
    | log => exact .log (denotes_decimal6 n) fits
    | table => exact .ldb (denotes_decimal6 n) fits
    | sstTable => exact .sst (denotes_decimal6 n) fits
    | temp => exact .dbtmp (denotes_decimal6 n) fits
    | descriptor => exact .descriptor (denotes_decimal6 n) fits
  refine ⟨fun name n _ => made name n, fun name name' n n' _ fits _ fits' differ eq => differ ?_, fun text n type => ?_⟩
  · have parses := made name n fits
    rw [eq, made name' n' fits'] at parses
    obtain ⟨rfl, sameType⟩ := Prod.mk.inj (Option.some.inj parses)
    rw [sameType]
  · exact ⟨recognised_of_parseFileName, Recognised.parses⟩

end Elsm
