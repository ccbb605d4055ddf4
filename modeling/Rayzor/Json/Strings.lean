import Rayzor.Json.Grammar
import Rayzor.Json.Printer

/-!
Contract: strings, printed and parsed.
-/

namespace Rayzor.Json

open Library

def Encoded (bytes : Bytes) : Prop := ∃ text, bytes = Utf8.encode text

theorem encoded_nil : Encoded [] := ⟨[], rfl⟩

theorem Encoded.append {first second : Bytes} (isFirst : Encoded first)
    (isSecond : Encoded second) : Encoded (first ++ second) := by
  obtain ⟨text, rfl⟩ := isFirst
  obtain ⟨more, rfl⟩ := isSecond
  exact ⟨text ++ more, (Utf8.encode_append text more).symm⟩

theorem Encoded.isValid_append {bytes : Bytes} (encoded : Encoded bytes) (rest : Bytes) :
    Utf8.isValid (bytes ++ rest) = Utf8.isValid rest := by
  obtain ⟨text, rfl⟩ := encoded
  exact Utf8.isValid_encode_append text rest

/-- A character is one byte of ASCII, or only bytes above ASCII. -/
theorem encodeChar_cases (c : Char) :
    (c.toNat < 128 ∧ String.utf8EncodeChar c = [UInt8.ofNat c.toNat]) ∨
      (128 ≤ c.toNat ∧ ∀ b ∈ String.utf8EncodeChar c, 128 ≤ b.toNat) := by
  show (c.val.toNat < 128 ∧ _ = [UInt8.ofNat c.val.toNat]) ∨ (128 ≤ c.val.toNat ∧ _)
  have bounds := Utf8.char_bounds c
  unfold String.utf8EncodeChar
  generalize c.val.toNat = value at bounds
  dsimp only
  split_ifs with one two three
  · exact Or.inl ⟨by omega, rfl⟩
  all_goals
    refine Or.inr ⟨by omega, fun b isByte => ?_⟩
    simp only [List.mem_cons, List.not_mem_nil, or_false] at isByte
    rcases isByte with rfl | rfl | rfl | rfl <;>
    · rw [UInt8.toNat_ofNat']
      omega

theorem encodeChar_ascii {value : Nat} (ascii : value < 128) :
    String.utf8EncodeChar (Char.ofNat value) = [UInt8.ofNat value] := by
  have same : (Char.ofNat value).toNat = value := by
    rw [Char.toNat_ofNat, if_pos (Or.inl (by omega))]
  rcases encodeChar_cases (Char.ofNat value) with ⟨_, bytes⟩ | ⟨high, _⟩
  · rw [bytes, same]
  · rw [same] at high
    omega

theorem encoded_ascii {b : UInt8} (ascii : b.toNat < 128) : Encoded [b] := by
  refine ⟨[Char.ofNat b.toNat], ?_⟩
  rw [Utf8.encode_cons, encodeChar_ascii ascii, UInt8.ofNat_toNat]
  rfl

theorem Encoded.cons {b : UInt8} {bytes : Bytes} (ascii : b.toNat < 128)
    (encoded : Encoded bytes) : Encoded (b :: bytes) :=
  (encoded_ascii ascii).append encoded

theorem encoded_of_ascii : ∀ {bytes : Bytes}, (∀ b ∈ bytes, b.toNat < 128) → Encoded bytes
  | [], _ => encoded_nil
  | b :: _, ascii => (encoded_of_ascii fun b isIn => ascii b (List.mem_cons_of_mem _ isIn)).cons
      (ascii b List.mem_cons_self)

theorem hexDigit_decimal : ∀ digit < 10, hexDigit (UInt8.ofNat (48 + digit)) = digit := by decide

theorem hexDigit_letters : ∀ digit < 16, 10 ≤ digit →
    hexDigit (UInt8.ofNat (87 + digit)) = digit ∧ hexDigit (UInt8.ofNat (55 + digit)) = digit := by
  decide

theorem hexDigit_eq {b : UInt8} {digit : Nat} (isDigit : IsHexDigit b digit) :
    hexDigit b = digit ∧ digit < 16 ∧ b.toNat < 128 := by
  rcases isDigit with ⟨small, rfl⟩ | ⟨above, small, rfl | rfl⟩
  · refine ⟨hexDigit_decimal digit small, by omega, ?_⟩
    rw [UInt8.toNat_ofNat']
    omega
  · refine ⟨(hexDigit_letters digit small above).1, small, ?_⟩
    rw [UInt8.toNat_ofNat']
    omega
  · refine ⟨(hexDigit_letters digit small above).2, small, ?_⟩
    rw [UInt8.toNat_ofNat']
    omega

/-- The parser's number of four digits, and what is behind them. -/
theorem IsHex.read {hex : Bytes} {cp : Nat} (isHex : IsHex hex cp) (rest : Bytes) :
    ((hex ++ rest).take 4).foldl (fun cp b => cp * 16 + hexDigit b) 0 = cp ∧
      (hex ++ rest).drop 4 = rest ∧ cp < 0x10000 ∧ Encoded hex := by
  cases isHex with
  | mk first second third fourth =>
      obtain ⟨one, small₁, ascii₁⟩ := hexDigit_eq first
      obtain ⟨two, small₂, ascii₂⟩ := hexDigit_eq second
      obtain ⟨three, small₃, ascii₃⟩ := hexDigit_eq third
      obtain ⟨four, small₄, ascii₄⟩ := hexDigit_eq fourth
      refine ⟨?_, rfl, by omega, ?_⟩
      · show (((0 * 16 + _) * 16 + _) * 16 + _) * 16 + _ = _
        rw [one, two, three, four, Nat.zero_mul, Nat.zero_add]
      · exact (((encoded_nil.cons ascii₄).cons ascii₃).cons ascii₂).cons ascii₁

theorem parseUnicodeEscape_single {hex : Bytes} {cp : Nat} (isHex : IsHex hex cp)
    (notHigh : isHighSurrogate cp = false) (rest : Bytes) :
    parseUnicodeEscape (hex ++ rest) = (cp, rest) := by
  obtain ⟨isNumber, isLeft, _⟩ := isHex.read rest
  rw [parseUnicodeEscape]
  dsimp only
  rw [isNumber, isLeft, notHigh, if_neg Bool.false_ne_true]

theorem not_high_of_low {cp : Nat} (low : isLowSurrogate cp = true) : isHighSurrogate cp = false := by
  rw [isLowSurrogate, Bool.and_eq_true, decide_eq_true_eq, decide_eq_true_eq] at low
  rw [isHighSurrogate, Bool.and_eq_false_iff, decide_eq_false_iff_not, decide_eq_false_iff_not]
  omega

theorem parseUnicodeEscape_pair {high low : Bytes} {first second : Nat}
    (isHigh : IsHex high first) (highSurrogate : isHighSurrogate first = true)
    (isLow : IsHex low second) (lowSurrogate : isLowSurrogate second = true) (rest : Bytes) :
    parseUnicodeEscape (high ++ backslashByte :: byte 'u' :: (low ++ rest)) =
      (0x10000 + (first - 0xD800) * 0x400 + (second - 0xDC00), rest) := by
  obtain ⟨isNumber, isLeft, _⟩ := isHigh.read (backslashByte :: byte 'u' :: (low ++ rest))
  have later := parseUnicodeEscape_single isLow (not_high_of_low lowSurrogate) rest
  rw [parseUnicodeEscape]
  dsimp only
  rw [isNumber, highSurrogate, if_pos rfl]
  split
  · rename_i slash u more isAfter
    rw [isLeft] at isAfter
    cases isAfter
    rw [if_pos ⟨rfl, rfl⟩, later, if_pos lowSurrogate, Prod.mk.injEq]
    exact ⟨by omega, rfl⟩
  · rename_i other
    exact absurd isLeft (other _ _ _)

theorem charFromU32_eq {cp : Nat} (valid : cp.isValidChar) :
    charFromU32 cp = Utf8.encode [Char.ofNat cp] := by
  rw [charFromU32, if_pos valid, Utf8.encode_cons]
  exact (List.append_nil _).symm

theorem escaped_eq : ∀ {letter : UInt8} {c : Char}, (letter, c) ∈ escapes →
    escaped letter = Utf8.encode [c] ∧ letter ≠ byte 'u' ∧ letter.toNat < 128 := by
  have table : ∀ entry ∈ escapes, escaped entry.1 = Utf8.encode [entry.2] ∧
      entry.1 ≠ byte 'u' ∧ entry.1.toNat < 128 := by decide
  exact fun {letter c} isIn => table (letter, c) isIn

theorem IsString.encoded {bytes : Bytes} {text : List Char} (isString : IsString bytes text) :
    Encoded bytes := by
  have slash : backslashByte.toNat < 128 := by decide
  have u : (byte 'u').toNat < 128 := by decide
  induction isString with
  | nil => exact encoded_nil
  | @plain c _ _ _ _ _ _ ih =>
      exact Encoded.append ⟨[c], (List.append_nil _).symm⟩ ih
  | escape isIn _ ih => exact (ih.cons (escaped_eq isIn).2.2).cons slash
  | unicode isHex _ _ _ ih =>
      exact (((isHex.read []).2.2.2.append ih).cons u).cons slash
  | pair isHigh _ isLow _ _ ih =>
      have later := (((isLow.read []).2.2.2.append ih).cons u).cons slash
      exact (((isHigh.read []).2.2.2.append later).cons u).cons slash

/-- Neither surrogate: the number of a character. -/
theorem isValidChar_of_single {cp : Nat} (small : cp < 0x10000)
    (notHigh : isHighSurrogate cp = false) (notLow : isLowSurrogate cp = false) :
    cp.isValidChar := by
  rw [isHighSurrogate, Bool.and_eq_false_iff, decide_eq_false_iff_not,
    decide_eq_false_iff_not] at notHigh
  rw [isLowSurrogate, Bool.and_eq_false_iff, decide_eq_false_iff_not,
    decide_eq_false_iff_not] at notLow
  show cp < 0xD800 ∨ 0xDFFF < cp ∧ cp < 0x110000
  omega

theorem isValidChar_of_pair {first second : Nat} (high : isHighSurrogate first = true)
    (low : isLowSurrogate second = true) :
    (0x10000 + (first - 0xD800) * 0x400 + (second - 0xDC00)).isValidChar := by
  rw [isHighSurrogate, Bool.and_eq_true, decide_eq_true_eq, decide_eq_true_eq] at high
  rw [isLowSurrogate, Bool.and_eq_true, decide_eq_true_eq, decide_eq_true_eq] at low
  show _ < 0xD800 ∨ 0xDFFF < _ ∧ _ < 0x110000
  omega

theorem ofNat_ne_byte {c : Char} {value : Nat} (ascii : c.toNat < 128) (small : value < 128)
    (differs : c ≠ Char.ofNat value) : UInt8.ofNat c.toNat ≠ UInt8.ofNat value := by
  intro same
  have values := congrArg UInt8.toNat same
  rw [UInt8.toNat_ofNat', UInt8.toNat_ofNat', Nat.mod_eq_of_lt (by omega),
    Nat.mod_eq_of_lt (by omega)] at values
  rw [← values, Char.ofNat_toNat] at differs
  exact differs rfl

theorem ne_of_above {b : UInt8} {value : Nat} (above : 128 ≤ b.toNat) (small : value < 128) :
    b ≠ UInt8.ofNat value := by
  intro same
  rw [same, UInt8.toNat_ofNat', Nat.mod_eq_of_lt (by omega)] at above
  omega

theorem parseStringLoop_cons (result rest : Bytes) (b : UInt8) :
    parseStringLoop result (b :: rest) =
      if b = quoteByte then (result, rest)
      else if b = backslashByte then
        match rest with
        | [] => (result, [])
        | letter :: more =>
            if letter = byte 'u' then
              parseStringLoop (result ++ charFromU32 (parseUnicodeEscape more).1)
                (parseUnicodeEscape more).2
            else parseStringLoop (result ++ escaped letter) more
      else if b < 0x80 then parseStringLoop (result ++ [b]) rest
      else if Utf8.isValid (b :: rest) then
        parseStringLoop (result ++ (b :: rest).take (Utf8.scan b rest).1)
          (rest.drop ((Utf8.scan b rest).1 - 1))
      else parseStringLoop result rest := by
  rw [parseStringLoop.eq_def]
  rfl

theorem parseStringLoop_plain {c : Char} (result rest : Bytes) (notQuote : c ≠ Char.ofNat 0x22)
    (notSlash : c ≠ Char.ofNat 0x5C) (valid : Utf8.isValid rest = true) :
    parseStringLoop result (String.utf8EncodeChar c ++ rest) =
      parseStringLoop (result ++ Utf8.encode [c]) rest := by
  have whole : Utf8.encode [c] = String.utf8EncodeChar c := List.append_nil _
  rcases encodeChar_cases c with ⟨ascii, isByte⟩ | ⟨_, above⟩
  · have isQuote : UInt8.ofNat c.toNat ≠ quoteByte := ofNat_ne_byte ascii (by decide) notQuote
    have isSlash : UInt8.ofNat c.toNat ≠ backslashByte := ofNat_ne_byte ascii (by decide) notSlash
    have isAscii : UInt8.ofNat c.toNat < 0x80 := by
      rw [UInt8.lt_iff_toNat_lt, UInt8.toNat_ofNat', Nat.mod_eq_of_lt (by omega)]
      exact ascii
    rw [whole, isByte, List.singleton_append, parseStringLoop_cons, if_neg isQuote, if_neg isSlash,
      if_pos isAscii]
  · obtain ⟨lead, more, isBytes, scanned, _⟩ := Utf8.scan_encoded c rest
    have isLead := above lead (by rw [isBytes]; exact List.mem_cons_self)
    have notAscii : ¬ lead < 0x80 := by
      rw [UInt8.lt_iff_toNat_lt]
      exact Nat.not_lt_of_le isLead
    have isValid : Utf8.isValid (lead :: (more ++ rest)) = true := by
      have same := Utf8.isValid_encode_append [c] rest
      rw [whole, isBytes, valid] at same
      exact same
    have taken : (lead :: (more ++ rest)).take (more.length + 1) = lead :: more := by
      rw [List.take_succ_cons, List.take_left]
    have isQuote : lead ≠ quoteByte := @ne_of_above lead 0x22 isLead (by decide)
    have isSlash : lead ≠ backslashByte := @ne_of_above lead 0x5C isLead (by decide)
    rw [whole, isBytes, List.cons_append, parseStringLoop_cons, if_neg isQuote, if_neg isSlash,
      if_neg notAscii, if_pos isValid, scanned, taken, Nat.add_sub_cancel, List.drop_left]

theorem parseStringLoop_letter {letter : UInt8} (result rest : Bytes) (other : letter ≠ byte 'u') :
    parseStringLoop result (backslashByte :: letter :: rest) =
      parseStringLoop (result ++ escaped letter) rest := by
  rw [parseStringLoop_cons, if_neg (by decide), if_pos rfl]
  exact if_neg other

theorem parseStringLoop_unicode (result rest : Bytes) :
    parseStringLoop result (backslashByte :: byte 'u' :: rest) =
      parseStringLoop (result ++ charFromU32 (parseUnicodeEscape rest).1)
        (parseUnicodeEscape rest).2 := by
  rw [parseStringLoop_cons, if_neg (by decide), if_pos rfl]
  exact if_pos rfl

/-- The slow path reads a string of the grammar as its text. -/
theorem parseStringLoop_eq {bytes rest : Bytes} {text : List Char} (isString : IsString bytes text)
    (valid : Utf8.isValid rest = true) (result : Bytes) :
    parseStringLoop result (bytes ++ quoteByte :: rest) = (result ++ Utf8.encode text, rest) := by
  have closes : Encoded [quoteByte] := encoded_ascii (by decide)
  have validBehind : ∀ {more : Bytes}, Encoded more →
      Utf8.isValid (more ++ quoteByte :: rest) = true := by
    intro more encoded
    rw [encoded.isValid_append, ← List.singleton_append, closes.isValid_append, valid]
  induction isString generalizing result with
  | nil =>
      rw [List.nil_append, parseStringLoop_cons, if_pos rfl]
      exact Prod.ext (List.append_nil _).symm rfl
  | @plain c more text _ notQuote notSlash isString ih =>
      rw [List.append_assoc, parseStringLoop_plain result _ notQuote notSlash
        (validBehind isString.encoded), ih, List.append_assoc, ← Utf8.encode_append]
      rfl
  | @escape letter c more text isIn _ ih =>
      obtain ⟨isEscaped, notUnicode, _⟩ := escaped_eq isIn
      rw [List.cons_append, List.cons_append, parseStringLoop_letter _ _ notUnicode, ih, isEscaped,
        List.append_assoc, ← Utf8.encode_append]
      rfl
  | @unicode hex more cp text isHex notHigh notLow _ ih =>
      obtain ⟨_, _, small, _⟩ := isHex.read []
      rw [List.cons_append, List.cons_append, List.append_assoc, parseStringLoop_unicode,
        parseUnicodeEscape_single isHex notHigh, ih,
        charFromU32_eq (isValidChar_of_single small notHigh notLow), List.append_assoc,
        ← Utf8.encode_append]
      rfl
  | @pair high low more first second text isHigh highSurrogate isLow lowSurrogate _ ih =>
      rw [List.cons_append, List.cons_append, List.append_assoc, List.cons_append,
        List.cons_append, List.append_assoc, parseStringLoop_unicode,
        parseUnicodeEscape_pair isHigh highSurrogate isLow lowSurrogate, ih,
        charFromU32_eq (isValidChar_of_pair highSurrogate lowSurrogate), List.append_assoc,
        ← Utf8.encode_append]
      rfl

theorem IsString.text_nil {bytes : Bytes} {text : List Char} (isString : IsString bytes text)
    (isNil : bytes = []) : text = [] := by
  cases isString with
  | nil => rfl
  | plain _ _ _ _ =>
      exact absurd (List.append_eq_nil_iff.mp isNil).1 String.utf8EncodeChar_ne_nil
  | escape _ _ => exact absurd isNil (List.cons_ne_nil _ _)
  | unicode _ _ _ _ => exact absurd isNil (List.cons_ne_nil _ _)
  | pair _ _ _ _ _ => exact absurd isNil (List.cons_ne_nil _ _)

theorem IsString.split {bytes : Bytes} {text : List Char} (isString : IsString bytes text) :
    ∃ plain escapedText more, text = plain ++ escapedText ∧ bytes = Utf8.encode plain ++ more ∧
      (∀ b ∈ Utf8.encode plain, isPlain b = true) ∧ IsString more escapedText ∧
      (more = [] ∨ more.head? = some backslashByte) := by
  cases isString with
  | nil => exact ⟨[], [], [], rfl, rfl, by simp [Utf8.encode], IsString.nil, Or.inl rfl⟩
  | @plain c rest text visible notQuote notSlash isString =>
      obtain ⟨plain, escapedText, more, rfl, rfl, allPlain, isMore, isHead⟩ := isString.split
      refine ⟨c :: plain, escapedText, more, rfl, ?_, ?_, isMore, isHead⟩
      · rw [Utf8.encode_cons, List.append_assoc]
      · intro b isIn
        rw [Utf8.encode_cons] at isIn
        rcases List.mem_append.mp isIn with isFirst | isLater
        · rw [isPlain, Bool.and_eq_true, bne_iff_ne, bne_iff_ne]
          rcases encodeChar_cases c with ⟨ascii, isByte⟩ | ⟨_, above⟩
          · rw [isByte, List.mem_singleton] at isFirst
            rw [isFirst]
            exact ⟨ofNat_ne_byte ascii (by decide) notQuote,
              ofNat_ne_byte ascii (by decide) notSlash⟩
          · exact ⟨ne_of_above (above b isFirst) (by decide),
              ne_of_above (above b isFirst) (by decide)⟩
        · exact allPlain b isLater
  | escape isIn isString =>
      exact ⟨[], _, _, rfl, rfl, by simp [Utf8.encode], IsString.escape isIn isString, Or.inr rfl⟩
  | unicode isHex notHigh notLow isString =>
      exact ⟨[], _, _, rfl, rfl, by simp [Utf8.encode],
        IsString.unicode isHex notHigh notLow isString, Or.inr rfl⟩
  | pair isHigh highSurrogate isLow lowSurrogate isString =>
      exact ⟨[], _, _, rfl, rfl, by simp [Utf8.encode],
        IsString.pair isHigh highSurrogate isLow lowSurrogate isString, Or.inr rfl⟩

theorem parseString_eq {bytes rest : Bytes} {text : List Char} (isString : IsString bytes text)
    (valid : Utf8.isValid rest = true) :
    parseString (bytes ++ quoteByte :: rest) = (Utf8.encode text, rest) := by
  obtain ⟨plain, escapedText, more, rfl, rfl, allPlain, isMore, isHead⟩ := isString.split
  have stops : ∀ b behind, isPlain b = false →
      (Utf8.encode plain ++ b :: behind).takeWhile isPlain = Utf8.encode plain ∧
        (Utf8.encode plain ++ b :: behind).dropWhile isPlain = b :: behind := by
    intro b behind notPlain
    have ends : ¬ isPlain b = true := by rw [notPlain]; exact Bool.false_ne_true
    rw [List.takeWhile_append_of_pos allPlain, List.dropWhile_append_of_pos allPlain,
      List.takeWhile_cons_of_neg ends, List.dropWhile_cons_of_neg ends, List.append_nil]
    exact ⟨rfl, rfl⟩
  rw [List.append_assoc, parseString]
  rcases isHead with rfl | startsEscape
  · obtain ⟨taken, left⟩ := stops quoteByte rest (by decide)
    rw [List.nil_append, left, taken, isMore.text_nil rfl, List.append_nil]
    exact if_pos rfl
  · obtain ⟨more, rfl⟩ : ∃ tail, more = backslashByte :: tail := by
      cases more with
      | nil => exact absurd startsEscape (by simp)
      | cons b tail =>
          rw [List.head?_cons, Option.some.injEq] at startsEscape
          exact ⟨tail, by rw [startsEscape]⟩
    obtain ⟨taken, left⟩ := stops backslashByte (more ++ quoteByte :: rest) (by decide)
    rw [List.cons_append, left, taken]
    show (if backslashByte = quoteByte then _ else
      parseStringSlow (Utf8.encode plain) ((backslashByte :: more) ++ quoteByte :: rest)) = _
    rw [if_neg (by decide), parseStringSlow, if_pos (Utf8.isValid_encode plain),
      parseStringLoop_eq isMore valid, Utf8.encode_append]

def printedByte (b : UInt8) : Bytes :=
  match shortEscape b with
  | some letter => [backslashByte, letter]
  | none => if b < 0x20 then controlEscape b else [b]

theorem stringifySegments_eq : ∀ (bytes segment buf : Bytes),
    stringifySegments segment buf bytes = buf ++ segment ++ bytes.flatMap printedByte
  | [], _, _ => (List.append_nil _).symm
  | b :: rest, segment, buf => by
      rw [stringifySegments, List.flatMap_cons, printedByte]
      cases shortEscape b with
      | some letter =>
          show stringifySegments [] _ rest = _
          rw [stringifySegments_eq rest]
          simp only [List.append_assoc, List.nil_append]
      | none =>
          show (if b < 0x20 then _ else _) = _ ++ ((if b < 0x20 then _ else _) ++ _)
          split_ifs
          · rw [stringifySegments_eq rest]
            simp only [List.append_assoc, List.nil_append]
          · rw [stringifySegments_eq rest]
            simp only [List.append_assoc]

theorem printedByte_above : ∀ b : UInt8, 128 ≤ b.toNat → printedByte b = [b] := by
  intro b above
  have apart : ∀ value < 128, b ≠ UInt8.ofNat value := fun _ => ne_of_above above
  have notQuote : ¬ (b = quoteByte ∨ b = backslashByte) :=
    not_or.mpr ⟨apart 0x22 (by decide), apart 0x5C (by decide)⟩
  have lineFeed : b ≠ 0x0A := apart 0x0A (by decide)
  have carriageReturn : b ≠ 0x0D := apart 0x0D (by decide)
  have tab : b ≠ 0x09 := apart 0x09 (by decide)
  have backspace : b ≠ 0x08 := apart 0x08 (by decide)
  have formFeed : b ≠ 0x0C := apart 0x0C (by decide)
  have none : shortEscape b = none := by
    rw [shortEscape, if_neg notQuote, if_neg lineFeed, if_neg carriageReturn, if_neg tab,
      if_neg backspace, if_neg formFeed]
  have visible : ¬ b < 0x20 := by
    rw [UInt8.lt_iff_toNat_lt]
    exact Nat.not_lt_of_le (le_trans (by decide : (0x20 : UInt8).toNat ≤ 128) above)
  rw [printedByte, none]
  exact if_neg visible

/-- What the printer makes of the bytes of ASCII: an escape, a numbered escape, or the
byte itself. -/
theorem printedByte_ascii : ∀ value < 128,
    (∃ entry ∈ escapes, entry.2 = Char.ofNat value ∧
        printedByte (UInt8.ofNat value) = [backslashByte, entry.1]) ∨
      (value < 32 ∧ printedByte (UInt8.ofNat value) =
        [backslashByte, byte 'u', byte '0', byte '0', hexByte (value / 16), hexByte (value % 16)]) ∨
      (32 ≤ value ∧ value ≠ 0x22 ∧ value ≠ 0x5C ∧
        printedByte (UInt8.ofNat value) = [UInt8.ofNat value]) := by
  decide +kernel

theorem isHexDigit_hexByte : ∀ {digit : Nat}, digit < 16 → IsHexDigit (hexByte digit) digit := by
  have table : ∀ digit < 16, (digit < 10 ∧ hexByte digit = UInt8.ofNat (48 + digit)) ∨
      (10 ≤ digit ∧ hexByte digit = UInt8.ofNat (87 + digit)) := by decide
  intro digit small
  rcases table digit small with ⟨decimal, isByte⟩ | ⟨letter, isByte⟩
  · exact Or.inl ⟨decimal, isByte⟩
  · exact Or.inr ⟨letter, small, Or.inl isByte⟩

theorem isString_printed (c : Char) {bytes : Bytes} {text : List Char}
    (isString : IsString bytes text) :
    IsString ((String.utf8EncodeChar c).flatMap printedByte ++ bytes) (c :: text) := by
  rcases encodeChar_cases c with ⟨ascii, isByte⟩ | ⟨above, allAbove⟩
  · rw [isByte, List.flatMap_singleton]
    rcases printedByte_ascii c.toNat ascii with ⟨entry, isIn, isChar, printed⟩ |
      ⟨control, printed⟩ | ⟨visible, notQuote, notSlash, printed⟩
    · rw [printed]
      rw [Char.ofNat_toNat] at isChar
      exact IsString.escape (isChar ▸ isIn) isString
    · have zero : IsHexDigit (byte '0') 0 := Or.inl ⟨by decide, rfl⟩
      have hex := IsHex.mk zero zero (isHexDigit_hexByte (by omega : c.toNat / 16 < 16))
        (isHexDigit_hexByte (by omega : c.toNat % 16 < 16))
      rw [show ((0 * 16 + 0) * 16 + c.toNat / 16) * 16 + c.toNat % 16 = c.toNat by omega] at hex
      have result := IsString.unicode hex
        (by rw [isHighSurrogate, decide_eq_false (by omega)]; rfl)
        (by rw [isLowSurrogate, decide_eq_false (by omega)]; rfl) isString
      rw [Char.ofNat_toNat] at result
      rw [printed]
      exact result
    · have plain := @IsString.plain c _ _ visible
        (fun same => notQuote (by rw [same]; decide)) (fun same => notSlash (by rw [same]; decide))
        isString
      rw [isByte] at plain
      rw [printed]
      exact plain
  · have same : (String.utf8EncodeChar c).flatMap printedByte = String.utf8EncodeChar c := by
      have singles : ∀ {bytes : Bytes}, (∀ b ∈ bytes, 128 ≤ b.toNat) →
          bytes.flatMap printedByte = bytes := by
        intro bytes all
        induction bytes with
        | nil => rfl
        | cons b rest ih =>
            rw [List.flatMap_cons, printedByte_above b (all b List.mem_cons_self),
              ih fun b isIn => all b (List.mem_cons_of_mem _ isIn)]
            rfl
      exact singles allAbove
    rw [same]
    refine IsString.plain (by omega) ?_ ?_ isString
    · intro isQuote
      rw [isQuote] at above
      exact absurd above (by decide)
    · intro isSlash
      rw [isSlash] at above
      exact absurd above (by decide)

theorem stringifyStringBytes_isString (text : List Char) : ∃ bytes, IsString bytes text ∧
    ∀ buf, stringifyStringBytes (Utf8.encode text) buf = buf ++ quoted bytes := by
  have printed : ∀ text, IsString ((Utf8.encode text).flatMap printedByte) text := by
    intro text
    induction text with
    | nil => exact IsString.nil
    | cons c text ih =>
        rw [Utf8.encode_cons, List.flatMap_append]
        exact isString_printed c ih
  refine ⟨_, printed text, fun buf => ?_⟩
  rw [stringifyStringBytes, stringifySegments_eq, quoted]
  simp only [List.append_assoc, List.nil_append, List.cons_append]

end Rayzor.Json
