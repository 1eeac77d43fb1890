import Mathlib.Data.List.Basic
import Mathlib.Data.List.TakeWhile
import Mathlib.Data.BitVec

/-!
# Text, bytes and the socket buffer

The parts of Qt that the tracker's parsers and formatters rest on. A `QString`
is its sequence of UTF-16 code units and a `QByteArray` its sequence of bytes.
Decoding and encoding UTF-8 belong to Qt and stay parameters (`TextCodec`), with
the documented facts the code relies on as named properties; `section`, `chop`,
`toInt`, number formatting and the line and byte reads of `QIODevice` are
defined as Qt documents them.
-/

namespace IoTTracker

abbrev QChar := UInt16
abbrev QString := List QChar
abbrev QByteArray := List UInt8

/-- `size_t` on the 64-bit platforms the server runs on. -/
abbrev SizeT := BitVec 64

namespace QString

def ofChars (chars : List Char) : QString := chars.map fun c => UInt16.ofNat c.toNat

def latin1 (text : String) : QString := ofChars text.toList

/-- `QString::section` with one separator character: the fields `start` to
    `stop`, with the separators between them. Fields are numbered from `0`, and
    a field that does not exist contributes nothing. -/
def «section» (text : QString) (sep : QChar) (start stop : Nat) : QString :=
  [sep].intercalate (((text.splitOn sep).drop start).take (stop + 1 - start))

def chop (text : QString) : QString := text.dropLast

/-- `QChar::isSpace`: ASCII blanks, NEL, no-break space and the Unicode
    separators. -/
def isSpace (c : QChar) : Bool :=
  c = 0x20 || (0x09 ≤ c && c ≤ 0x0d) || c = 0x85 || c = 0xa0 || c = 0x1680 ||
    (0x2000 ≤ c && c ≤ 0x200a) || c = 0x2028 || c = 0x2029 || c = 0x202f ||
    c = 0x205f || c = 0x3000

def trimmed (text : QString) : QString :=
  ((text.dropWhile isSpace).reverse.dropWhile isSpace).reverse

abbrev IsDigit (c : QChar) : Prop := 0x30 ≤ c ∧ c ≤ 0x39

def digitValue (c : QChar) : Option Nat :=
  if IsDigit c then some (c.toNat - 0x30) else none

def parseDigitsFrom : Nat → QString → Option Nat
  | value, [] => some value
  | value, c :: rest =>
      match digitValue c with
      | some digit => parseDigitsFrom (10 * value + digit) rest
      | none => none

def parseDigits (text : QString) : Option Nat :=
  if text = [] then none else parseDigitsFrom 0 text

def parseInteger : QString → Option Int
  | 0x2d :: digits => (parseDigits digits).map fun n => -(n : Int)
  | 0x2b :: digits => (parseDigits digits).map fun n => (n : Int)
  | digits => (parseDigits digits).map fun n => (n : Int)

/-- `QString::toInt`: the numeral between surrounding blanks, `0` when the text
    is no decimal numeral or its value does not fit in 32 bits. -/
def toInt (text : QString) : Int :=
  match parseInteger (trimmed text) with
  | some value => if -2 ^ 31 ≤ value ∧ value < 2 ^ 31 then value else 0
  | none => 0

def decimal (n : Nat) : QString := ofChars (Nat.toDigits 10 n)

def number : Int → QString
  | .ofNat n => decimal n
  | .negSucc n => 0x2d :: decimal (n + 1)

/-! ### Sections -/

theorem section_zero (text : QString) (sep : QChar) :
    «section» text sep 0 0 = text.takeWhile (· ≠ sep) := by
  induction text with
  | nil => simp [«section»]
  | cons c text ih =>
      by_cases hc : c = sep
      · simp [«section», List.splitOn_cons_eq_if_modifyHead, hc]
      · obtain ⟨field, fields, hfields⟩ :=
          List.exists_cons_of_ne_nil (List.splitOn_ne_nil sep text)
        simp only [«section», hfields] at ih
        simp [«section», List.splitOn_cons_eq_if_modifyHead, hc, hfields] at ih ⊢
        exact ih

theorem section_one (text : QString) (sep : QChar) :
    «section» text sep 1 1 =
      ((text.dropWhile (· ≠ sep)).drop 1).takeWhile (· ≠ sep) := by
  induction text with
  | nil => simp [«section»]
  | cons c text ih =>
      by_cases hc : c = sep
      · have hzero := section_zero text sep
        simp only [«section»] at hzero
        simpa [«section», List.splitOn_cons_eq_if_modifyHead, hc] using hzero
      · obtain ⟨field, fields, hfields⟩ :=
          List.exists_cons_of_ne_nil (List.splitOn_ne_nil sep text)
        simp only [«section», hfields] at ih
        simp [«section», List.splitOn_cons_eq_if_modifyHead, hc, hfields] at ih ⊢
        exact ih

/-! ### Decimal numerals -/

theorem isDigit_ofNat {n : Nat} (hlow : 48 ≤ n) (hhigh : n ≤ 57) :
    IsDigit (UInt16.ofNat n) := by
  have hmod : n % 2 ^ 16 = n := by omega
  simp only [IsDigit, UInt16.le_iff_toNat_le, UInt16.toNat_ofNat', hmod]
  exact ⟨hlow, hhigh⟩

theorem digitValue_ofNat {n : Nat} (hlow : 48 ≤ n) (hhigh : n ≤ 57) :
    digitValue (UInt16.ofNat n) = some (n - 48) := by
  have hmod : n % 2 ^ 16 = n := by omega
  have hdigit : IsDigit (UInt16.ofNat n) := isDigit_ofNat hlow hhigh
  rw [digitValue, if_pos hdigit, UInt16.toNat_ofNat', hmod]

theorem isSpace_eq_false_of_isDigit {c : QChar} (hc : IsDigit c) : isSpace c = false := by
  have hlow : 48 ≤ c.toNat := UInt16.le_iff_toNat_le.mp hc.1
  have hhigh : c.toNat ≤ 57 := UInt16.le_iff_toNat_le.mp hc.2
  simp only [isSpace, Bool.or_eq_false_iff, decide_eq_false_iff_not, Bool.and_eq_false_iff]
  simp only [← UInt16.toNat_inj, UInt16.le_iff_toNat_le, UInt16.reduceToNat]
  omega

private theorem charIsDigit_range {d : Char} (hd : d.isDigit) :
    48 ≤ d.toNat ∧ d.toNat ≤ 57 := by
  simp only [Char.isDigit, ge_iff_le, Bool.and_eq_true, decide_eq_true_eq,
    UInt32.le_iff_toNat_le] at hd
  exact hd

theorem isDigit_of_mem_decimal {n : Nat} {c : QChar} (hc : c ∈ decimal n) : IsDigit c := by
  obtain ⟨d, hd, rfl⟩ := List.mem_map.mp hc
  have hrange := charIsDigit_range (Nat.isDigit_of_mem_toDigits (by decide) (by decide) hd)
  exact isDigit_ofNat hrange.1 hrange.2

theorem decimal_ne_nil (n : Nat) : decimal n ≠ [] := by
  simp [decimal, ofChars, Nat.toDigits_ne_nil]

theorem parseDigitsFrom_ofChars (digits : List Char) (hdigits : ∀ d ∈ digits, d.isDigit)
    (value : Nat) :
    parseDigitsFrom value (ofChars digits) = some (Nat.ofDigitChars 10 digits value) := by
  induction digits generalizing value with
  | nil => simp [parseDigitsFrom, ofChars]
  | cons d digits ih =>
      have hrange := charIsDigit_range (hdigits d (by simp))
      have ih' := ih (fun e he => hdigits e (by simp [he])) (10 * value + (d.toNat - 48))
      simp only [ofChars, List.map_cons, parseDigitsFrom,
        digitValue_ofNat hrange.1 hrange.2, Nat.ofDigitChars_cons]
      exact ih'

theorem parseDigits_decimal (n : Nat) : parseDigits (decimal n) = some n := by
  rw [parseDigits, if_neg (decimal_ne_nil n), decimal,
    parseDigitsFrom_ofChars _ fun d hd => Nat.isDigit_of_mem_toDigits (by decide) (by decide) hd,
    Nat.ofDigitChars_toDigits (by decide) (by decide)]

theorem decimal_injective : Function.Injective decimal := by
  intro n n' hdecimal
  apply Option.some.inj
  rw [← parseDigits_decimal, hdecimal, parseDigits_decimal]

theorem dropWhile_isSpace_of_isDigit {text : QString} (hdigits : ∀ c ∈ text, IsDigit c) :
    text.dropWhile isSpace = text := by
  cases text with
  | nil => rfl
  | cons c text =>
      have hc := isSpace_eq_false_of_isDigit (hdigits c (by simp))
      simp [List.dropWhile, hc]

theorem trimmed_decimal (n : Nat) : trimmed (decimal n) = decimal n := by
  have hdigits : ∀ c ∈ decimal n, IsDigit c := fun c hc => isDigit_of_mem_decimal hc
  have hreverse : ∀ c ∈ (decimal n).reverse, IsDigit c := fun c hc =>
    hdigits c (List.mem_reverse.mp hc)
  rw [trimmed, dropWhile_isSpace_of_isDigit hdigits, dropWhile_isSpace_of_isDigit hreverse,
    List.reverse_reverse]

theorem parseInteger_decimal (n : Nat) : parseInteger (decimal n) = some (n : Int) := by
  have hparse := parseDigits_decimal n
  cases htext : decimal n with
  | nil => exact absurd htext (decimal_ne_nil n)
  | cons c rest =>
      have hc : IsDigit c := isDigit_of_mem_decimal (n := n) (by simp [htext])
      rw [htext] at hparse
      unfold parseInteger
      split
      · exact absurd hc.1 (by simp_all [IsDigit])
      · exact absurd hc.1 (by simp_all [IsDigit])
      · rw [hparse]
        rfl

/-- **Printing a natural number and reading it back as an `int`** gives the
    number when it fits in 32 bits and `0` when it does not. -/
theorem toInt_decimal (n : Nat) :
    toInt (decimal n) = if n < 2 ^ 31 then (n : Int) else 0 := by
  rw [toInt, trimmed_decimal, parseInteger_decimal]
  by_cases hn : n < 2 ^ 31
  · rw [if_pos hn]
    exact if_pos (by omega)
  · rw [if_neg hn]
    exact if_neg (by omega)

theorem toInt_range (text : QString) : -2 ^ 31 ≤ toInt text ∧ toInt text < 2 ^ 31 := by
  unfold toInt
  split
  · split
    · assumption
    · decide
  · decide

/-! ### Lines of ASCII text -/

def AsciiLine (text : QString) : Prop := ∀ c ∈ text, c < 128 ∧ c ≠ 0 ∧ c ≠ 0x0a

instance (text : QString) : Decidable text.AsciiLine :=
  List.decidableBAll (fun c => c < 128 ∧ c ≠ 0 ∧ c ≠ 0x0a) text

theorem AsciiLine.append {text text' : QString} (htext : text.AsciiLine)
    (htext' : text'.AsciiLine) : AsciiLine (text ++ text') := by
  intro c hc
  rcases List.mem_append.mp hc with hmem | hmem
  · exact htext c hmem
  · exact htext' c hmem

theorem asciiLine_decimal (n : Nat) : (decimal n).AsciiLine := by
  intro c hc
  rcases isDigit_of_mem_decimal hc with ⟨hlow, hhigh⟩
  simp only [ne_eq, ← UInt16.toNat_inj, UInt16.le_iff_toNat_le, UInt16.lt_iff_toNat_lt,
    UInt16.reduceToNat] at hlow hhigh ⊢
  omega

theorem mem_number {n : Int} {c : QChar} (hc : c ∈ number n) : c = 0x2d ∨ IsDigit c := by
  cases n with
  | ofNat n => exact .inr (isDigit_of_mem_decimal hc)
  | negSucc n =>
      rcases List.mem_cons.mp hc with hsign | hdigit
      · exact .inl hsign
      · exact .inr (isDigit_of_mem_decimal hdigit)

theorem trimmed_number (n : Int) : trimmed (number n) = number n := by
  have hspace : ∀ c ∈ number n, isSpace c = false := by
    intro c hc
    rcases mem_number hc with rfl | hdigit
    · rfl
    · exact isSpace_eq_false_of_isDigit hdigit
  have hdrop : ∀ text : QString, (∀ c ∈ text, isSpace c = false) →
      text.dropWhile isSpace = text := by
    intro text htext
    cases text with
    | nil => rfl
    | cons c text => exact List.dropWhile_cons_of_neg (by simp [htext c])
  have hreverse : ∀ c ∈ (number n).reverse, isSpace c = false := fun c hc =>
    hspace c (List.mem_reverse.mp hc)
  simp only [trimmed, hdrop _ hspace, hdrop _ hreverse, List.reverse_reverse]

theorem asciiLine_number (n : Int) : (number n).AsciiLine := by
  cases n with
  | ofNat n => exact asciiLine_decimal n
  | negSucc n =>
      apply AsciiLine.append (show AsciiLine [0x2d] by decide)
      exact asciiLine_decimal (n + 1)

theorem takeWhile_number (n : Int) :
    ((number n).takeWhile fun c => decide (c ≠ 0x3d)) = number n := by
  rw [List.takeWhile_eq_self_iff]
  intro c hc
  apply decide_eq_true
  rintro rfl
  rcases mem_number hc with hsign | hdigit
  · exact absurd hsign (by decide)
  · exact absurd hdigit (by decide)

def ofLines (lines : List QString) : QString :=
  lines.flatMap fun line => line ++ [0x0a]

theorem ofLines_cons (line : QString) (lines : List QString) :
    ofLines (line :: lines) = line ++ 0x0a :: ofLines lines :=
  List.append_assoc line [0x0a] (ofLines lines)

theorem append_newline_inj {line line' rest rest' : QString} (hline : 0x0a ∉ line)
    (hline' : 0x0a ∉ line') (heq : line ++ 0x0a :: rest = line' ++ 0x0a :: rest') :
    line = line' ∧ rest = rest' := by
  induction line generalizing line' with
  | nil =>
      cases line' with
      | nil => exact ⟨rfl, (List.cons.inj heq).2⟩
      | cons c line' =>
          rw [← (List.cons.inj heq).1] at hline'
          exact absurd (List.mem_cons_self ..) hline'
  | cons c line ih =>
      cases line' with
      | nil =>
          rw [(List.cons.inj heq).1] at hline
          exact absurd (List.mem_cons_self ..) hline
      | cons c' line' =>
          obtain ⟨hhead, htail⟩ := List.cons.inj heq
          rw [List.mem_cons, not_or] at hline hline'
          obtain ⟨hline, hrest⟩ := ih hline.2 hline'.2 htail
          exact ⟨congrArg₂ List.cons hhead hline, hrest⟩

/-- Lines without a newline of their own are read off their text. -/
theorem ofLines_inj {lines lines' : List QString} (hlines : ∀ line ∈ lines, 0x0a ∉ line)
    (hlines' : ∀ line ∈ lines', 0x0a ∉ line) (heq : ofLines lines = ofLines lines') :
    lines = lines' := by
  induction lines generalizing lines' with
  | nil =>
      cases lines' with
      | nil => rfl
      | cons line' lines' => simp [ofLines] at heq
  | cons line lines ih =>
      cases lines' with
      | nil => simp [ofLines] at heq
      | cons line' lines' =>
          rw [ofLines_cons, ofLines_cons] at heq
          rw [List.forall_mem_cons] at hlines hlines'
          obtain ⟨hline, hrest⟩ := append_newline_inj hlines.1 hlines'.1 heq
          rw [hline, ih hlines.2 hlines'.2 hrest]

end QString

def castSizeT (value : Int) : SizeT := BitVec.ofInt 64 value

/-! ### Conversion between bytes and text -/

structure TextCodec where
  fromUtf8 : QByteArray → QString
  toUtf8 : QString → QByteArray

def QByteArray.cString (bytes : QByteArray) : QByteArray :=
  bytes.takeWhile fun byte => decide (byte ≠ 0)

theorem QByteArray.cString_of_notMem {bytes : QByteArray} (hzero : 0 ∉ bytes) :
    QByteArray.cString bytes = bytes := by
  rw [cString, List.takeWhile_eq_self_iff]
  intro byte hbyte
  apply decide_eq_true
  rintro rfl
  exact hzero hbyte

namespace TextCodec

/-- `QString(const QByteArray &)` of Qt 5 stops at the first zero byte. -/
def fromByteArray (codec : TextCodec) (bytes : QByteArray) : QString :=
  codec.fromUtf8 (QByteArray.cString bytes)

theorem fromByteArray_of_notMem (codec : TextCodec) {bytes : QByteArray} (hzero : 0 ∉ bytes) :
    codec.fromByteArray bytes = codec.fromUtf8 bytes := by
  rw [fromByteArray, QByteArray.cString_of_notMem hzero]

/-- Both conversions leave ASCII as it is. -/
structure AsciiTransparent (codec : TextCodec) : Prop where
  fromUtf8_ascii : ∀ bytes : QByteArray, (∀ byte ∈ bytes, byte < 128) →
    codec.fromUtf8 bytes = bytes.map UInt8.toUInt16
  toUtf8_ascii : ∀ text : QString, (∀ c ∈ text, c < 128) →
    codec.toUtf8 text = text.map UInt16.toUInt8

/-- Decoding a line maps its final newline byte to a final newline character;
    `lineText` is the text decoded from the bytes before it. -/
def DecodesLines (codec : TextCodec) (lineText : QByteArray → QString) : Prop :=
  ∀ line : QByteArray, 0 ∉ line → 0x0a ∉ line →
    codec.fromUtf8 (line ++ [0x0a]) = lineText line ++ [0x0a]

theorem toUInt16_toUInt8 {c : QChar} (hc : c < 128) : c.toUInt8.toUInt16 = c := by
  have hlt : c.toNat < 128 := UInt16.lt_iff_toNat_lt.mp hc
  rw [← UInt16.toNat_inj, UInt8.toNat_toUInt16, UInt16.toNat_toUInt8]
  omega

theorem toUInt8_lt {c : QChar} (hc : c < 128) : c.toUInt8 < 128 := by
  have hlt : c.toNat < 128 := UInt16.lt_iff_toNat_lt.mp hc
  rw [UInt8.lt_iff_toNat_lt, UInt16.toNat_toUInt8]
  exact (Nat.mod_le c.toNat 256).trans_lt hlt

theorem toUInt8_eq_iff {c : QChar} (hc : c < 128) {byte : UInt8} (hbyte : byte < 128) :
    c.toUInt8 = byte ↔ c = byte.toUInt16 := by
  have hlt : c.toNat < 128 := UInt16.lt_iff_toNat_lt.mp hc
  have hbyteLt : byte.toNat < 128 := UInt8.lt_iff_toNat_lt.mp hbyte
  rw [← UInt16.toNat_inj, ← UInt8.toNat_inj, UInt8.toNat_toUInt16, UInt16.toNat_toUInt8]
  omega

theorem zero_notMem {text : QString} (htext : text.AsciiLine) :
    0 ∉ text.map UInt16.toUInt8 := by
  intro hmem
  obtain ⟨c, hc, hzero⟩ := List.mem_map.mp hmem
  apply (htext c hc).2.1
  exact (toUInt8_eq_iff (htext c hc).1 (by decide)).mp hzero

theorem newline_notMem {text : QString} (htext : text.AsciiLine) :
    0x0a ∉ text.map UInt16.toUInt8 := by
  intro hmem
  rcases List.mem_map.mp hmem with ⟨c, hc, hnewline⟩
  apply (htext c hc).2.2
  exact (toUInt8_eq_iff (htext c hc).1 (by decide)).mp hnewline

/-- **Sending a line of ASCII text and reading it back.** -/
theorem AsciiTransparent.chop_fromByteArray {codec : TextCodec}
    (hcodec : codec.AsciiTransparent) {text : QString} (htext : text.AsciiLine) :
    QString.chop (codec.fromByteArray (text.map UInt16.toUInt8 ++ [0x0a])) = text := by
  have hzero : (0 : UInt8) ∉ text.map UInt16.toUInt8 ++ [0x0a] := by
    simp [zero_notMem htext]
  have hascii : ∀ byte ∈ text.map UInt16.toUInt8 ++ [0x0a], byte < 128 := by
    intro byte hbyte
    rcases List.mem_append.mp hbyte with hmem | hmem
    · obtain ⟨c, hc, rfl⟩ := List.mem_map.mp hmem
      exact toUInt8_lt (htext c hc).1
    · rw [List.mem_singleton.mp hmem]
      decide
  have hback : (text.map UInt16.toUInt8).map UInt8.toUInt16 = text := by
    rw [List.map_map]
    exact (List.map_congr_left fun c hc => toUInt16_toUInt8 (htext c hc).1).trans
      (List.map_id text)
  rw [codec.fromByteArray_of_notMem hzero, hcodec.fromUtf8_ascii _ hascii, List.map_append, hback]
  simp [QString.chop]

theorem AsciiTransparent.toUtf8_ofLines {codec : TextCodec}
    (hcodec : codec.AsciiTransparent) {lines : List QString}
    (hlines : ∀ line ∈ lines, line.AsciiLine) :
    codec.toUtf8 (QString.ofLines lines) =
      lines.flatMap fun line => line.map UInt16.toUInt8 ++ [0x0a] := by
  rw [hcodec.toUtf8_ascii, QString.ofLines, List.map_flatMap]
  · simp
  · intro c hc
    rcases List.mem_flatMap.mp hc with ⟨line, hline, hmem⟩
    rcases List.mem_append.mp hmem with hmem | hmem
    · exact (hlines line hline c hmem).1
    · rw [List.mem_singleton.mp hmem]
      decide

def latin1 : TextCodec where
  fromUtf8 := List.map UInt8.toUInt16
  toUtf8 := List.map UInt16.toUInt8

theorem latin1_asciiTransparent : latin1.AsciiTransparent where
  fromUtf8_ascii _ _ := rfl
  toUtf8_ascii _ _ := rfl

theorem latin1_decodesLines : latin1.DecodesLines (List.map UInt8.toUInt16) := by
  intro line _ _
  simp [latin1]

end TextCodec

def QByteArray.latin1 (text : String) : QByteArray :=
  TextCodec.latin1.toUtf8 (QString.latin1 text)

/-! ### Reading from a socket -/

namespace QIODevice

def canReadLine (buffer : QByteArray) : Bool := decide (0x0a ∈ buffer)

def readLine (buffer : QByteArray) : QByteArray × QByteArray :=
  buffer.splitAt (buffer.idxOf 0x0a + 1)

def read (buffer : QByteArray) (maxSize : Int) : QByteArray × QByteArray :=
  buffer.splitAt maxSize.toNat

theorem canReadLine_iff (buffer : QByteArray) :
    canReadLine buffer = true ↔ 0x0a ∈ buffer := by
  simp [canReadLine]

theorem readLine_append {line : QByteArray} (hline : 0x0a ∉ line) (rest : QByteArray) :
    readLine (line ++ 0x0a :: rest) = (line ++ [0x0a], rest) := by
  have hidx : (line ++ 0x0a :: rest).idxOf 0x0a = line.length := by
    simp [List.idxOf_append_of_notMem hline]
  simp [readLine, hidx, List.splitAt_eq, List.take_append, List.drop_append]

theorem exists_line {buffer : QByteArray} (hnewline : 0x0a ∈ buffer) :
    ∃ line rest, 0x0a ∉ line ∧ buffer = line ++ 0x0a :: rest := by
  obtain ⟨line, rest, hbuffer, hline⟩ := List.eq_append_cons_of_mem hnewline
  exact ⟨line, rest, hline, hbuffer⟩

end QIODevice

end IoTTracker
