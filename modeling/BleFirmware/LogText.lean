import BleFirmware.LogPrint
import BleFirmware.Base.Numeral
import Mathlib.Order.Bounds.Basic
import Mathlib.Tactic.SplitIfs

/-!
# What the formatters write

Each formatter fills one text into the buffer, from the cut offset on, and returns
its length. The texts are told apart from the loops and the shifts that write
them, and their numerals are read back by an alphabet of sixteen digits. The parts
of the prefix are texts too, laid out one behind the other.
-/

namespace BleFirmware.LogText
open Bytes Buffer

def chars (s : String) : CString := s.toList.map charOf

def hexAlphabet : Alphabet UInt8 where
  base := 16
  symbol := hexChar
  digit c := hexCharTable.idxOf? c
  base_pos := by decide
  digit_symbol := by decide

def hexText (w n : ℕ) : CString := hexAlphabet.numeral w n

def readHex (cs : CString) : Option ℕ := hexAlphabet.read cs

@[simp] theorem length_hexText (w n : ℕ) : (hexText w n).length = w :=
  hexAlphabet.length_numeral w n

theorem readHex_hexText {w n : ℕ} (h : n < 16^w) : readHex (hexText w n) = some n :=
  hexAlphabet.read_numeral h

theorem mem_hexCharTable_of_mem_hexText {w n : ℕ} {c : UInt8} (h : c ∈ hexText w n) :
    c ∈ hexCharTable := by
  obtain ⟨d, hd, rfl⟩ := hexAlphabet.mem_numeral h
  have hall : ∀ d < 16, hexChar d ∈ hexCharTable := by decide
  exact hall d hd

theorem hexDigit_eq (n shift : ℕ) : hexDigit n shift = hexChar (n / 2^shift % 16) := by
  rw [hexDigit, Nat.shiftRight_eq_div_pow]
  exact congrArg hexChar (Nat.and_two_pow_sub_one_eq_mod _ 4)

theorem hexText_succ (w n : ℕ) : hexText (w+1) n = hexDigit n (4*w) :: hexText w n := by
  rw [hexDigit_eq, pow_mul]
  rfl

theorem hexText_zero (n : ℕ) : hexText 0 n = [] := rfl

theorem hexText_one (n : ℕ) : hexText 1 n = [hexDigit n 0] := hexText_succ 0 n

theorem hexText_two {n : ℕ} (h : n < 256) : hexText 2 n = [hexChar (n >>> 4), hexDigit n 0] := by
  have hhigh : n / 2^4 < 16 := by omega
  rw [hexText_succ, hexText_one, hexDigit_eq n (4*1), Nat.mod_eq_of_lt hhigh,
    Nat.shiftRight_eq_div_pow]

def numberWidth (number : ℕ) : ℕ :=
  if number = 0 then 1 else if number ≤ 0xFF then 2 else if number ≤ 0xFFFF then 4 else 8

theorem numberDigits_eq (number : ℕ) : numberDigits number = hexText (numberWidth number) number := by
  unfold numberDigits numberWidth
  split
  · rename_i hzero
    subst hzero
    rfl
  · split
    · exact (hexText_two (by omega)).symm
    · split
      · simp only [hexText_succ, hexText_zero, Nat.reduceMul]
      · simp only [hexText_succ, hexText_zero, Nat.reduceMul]

theorem lt_pow_numberWidth {number : ℕ} (h : number < 2^32) : number < 16 ^ numberWidth number := by
  unfold numberWidth
  split <;> [omega; split <;> [omega; split <;> omega]]

theorem isLeast_numberWidth {number : ℕ} (h : number < 2^32) (hpos : number ≠ 0) :
    IsLeast {w | w ∈ [2, 4, 8] ∧ number < 16^w} (numberWidth number) := by
  refine ⟨⟨?_, lt_pow_numberWidth h⟩, ?_⟩
  · unfold numberWidth
    rw [if_neg hpos]
    split <;> [simp; split <;> simp]
  · rintro w ⟨hw, hlt⟩
    unfold numberWidth
    simp only [List.mem_cons, List.not_mem_nil, or_false] at hw
    obtain rfl | rfl | rfl := hw <;> split_ifs <;> omega

theorem logFormatNumber_eq (number : UInt32) (b : Buffer UInt8) (p : ℕ) :
    logFormatNumber number b p =
      (b.fill p (chars "0x" ++ numberDigits number.toNat), 2 + (numberDigits number.toNat).length) :=
  Prod.ext (fill_append (chars "0x") _) rfl

theorem logFormatStringNumber_eq (s : CString) (number : UInt32) (b : Buffer UInt8) (offset : ℕ)
    (h : s.length + 12 < 65536) :
    logFormatStringNumber (some s) number b offset =
      (b.fill (min offset logPrependSizeMax)
        (s ++ chars ": " ++ (chars "0x" ++ numberDigits number.toNat)),
        s.length + 4 + (numberDigits number.toNat).length) := by
  have hwidth : (numberDigits number.toNat).length ≤ 8 := by
    rw [numberDigits_eq, length_hexText, numberWidth]
    split_ifs <;> omega
  have hlen : toUint16 s.length = s.length := Nat.mod_eq_of_lt (by omega)
  have hlen' : toUint16 (s.length + 2) = (s ++ chars ": ").length := by
    rw [toUint16, Nat.mod_eq_of_lt (by omega), List.length_append]
    rfl
  have hcolon : [charOf ':', charOf ' '] = chars ": " := rfl
  refine Prod.ext ?_ ?_
  · simp only [logFormatStringNumber, hlen, hlen', List.take_length, logFormatNumber_eq, hcolon]
    rw [fill_append, fill_append]
  · simp only [logFormatStringNumber, logFormatNumber_eq, toUint16]
    omega

/-- The text is the string, `: 0x` and the numeral of the number in the least width
that holds it. -/
theorem string_number_canonical (s : CString) (b : Buffer UInt8) (offset : ℕ)
    (hfits : min offset logPrependSizeMax + s.length ≤ logBufferSize) :
    ∃ d : UInt32 → CString,
      Function.Injective (fun number => s ++ chars ": " ++ chars "0x" ++ d number) ∧
      ∀ number : UInt32,
        let text := s ++ chars ": " ++ chars "0x" ++ d number
        logFormatStringNumber (some s) number b offset =
          (b.fill (min offset logPrependSizeMax) text, text.length) ∧
        (∀ c ∈ d number, c ∈ hexCharTable) ∧
        readHex (d number) = some number.toNat ∧
        (number = 0 → (d number).length = 1) ∧
        (number ≠ 0 →
          IsLeast {w | w ∈ [2, 4, 8] ∧ number.toNat < 16^w} (d number).length) := by
  have hread : ∀ number : UInt32, readHex (numberDigits number.toNat) = some number.toNat := by
    intro number
    rw [numberDigits_eq]
    exact readHex_hexText (lt_pow_numberWidth number.toNat_lt)
  refine ⟨fun number => numberDigits number.toNat, ?_, fun number => ⟨?_, ?_, ?_, ?_, ?_⟩⟩
  · intro m n hmn
    have hdigits := List.append_cancel_left hmn
    have hnat := (hread m).symm.trans ((congrArg readHex hdigits).trans (hread n))
    exact UInt32.toNat_inj.mp (Option.some.inj hnat)
  · rw [logBufferSize_eq] at hfits
    rw [logFormatStringNumber_eq s number b offset (by omega), ← List.append_assoc]
    refine Prod.ext rfl ?_
    simp only [List.length_append]
    rfl
  · intro c hc
    change c ∈ numberDigits number.toNat at hc
    rw [numberDigits_eq] at hc
    exact mem_hexCharTable_of_mem_hexText hc
  · exact hread number
  · rintro rfl
    rfl
  · intro hpos
    change IsLeast _ (numberDigits number.toNat).length
    rw [numberDigits_eq, length_hexText]
    exact isLeast_numberWidth number.toNat_lt fun hzero => hpos (UInt32.toNat_inj.mp hzero)

theorem string_number_canonical_id :
    ∃ d : CString, logFormatStringNumber (some (chars "id")) 0xBEEF Buffer.empty 30 =
        (Buffer.empty.fill 20 (chars "id" ++ chars ": " ++ chars "0x" ++ d), 6 + d.length) ∧
      readHex d = some 0xBEEF := by
  obtain ⟨d, -, hd⟩ := string_number_canonical (chars "id") Buffer.empty 30 (by decide)
  obtain ⟨htext, -, hread, -⟩ := hd 0xBEEF
  refine ⟨d 0xBEEF, htext.trans (Prod.ext rfl ?_), hread⟩
  simp only [List.length_append]
  rfl

def dump (bytes : List UInt8) : CString :=
  bytes.flatMap fun byte => hexText 2 byte.toNat ++ [charOf ' ']

def headerText (dataLen : ℕ) : CString :=
  chars "[" ++ hexText 3 (min dataLen 0xFFF) ++ chars "h]: "

def hexArrayText (caption : CString) (dataLen : ℕ) (bytes : List UInt8) : CString :=
  caption ++ headerText dataLen ++ dump bytes

def readDump : CString → Option (List UInt8)
  | [] => some []
  | hi :: lo :: _ :: cs =>
    (readHex [hi, lo]).bind fun byte => (readDump cs).map fun bytes => UInt8.ofNat byte :: bytes
  | _ => none

def readHexArray (captionLen : ℕ) (cs : CString) : Option (ℕ × List UInt8) :=
  (readHex ((cs.drop (captionLen + 1)).take 3)).bind fun dataLen =>
    (readDump (cs.drop (captionLen + 8))).map fun bytes => (dataLen, bytes)

theorem dump_append (bytes : List UInt8) (byte : UInt8) :
    dump (bytes ++ [byte]) =
      dump bytes ++ [hexChar (byte.toNat >>> 4), hexDigit byte.toNat 0, charOf ' '] := by
  simp [dump, hexText_two byte.toNat_lt]

theorem length_dump (bytes : List UInt8) : (dump bytes).length = 3 * bytes.length := by
  induction bytes with
  | nil => rfl
  | cons byte bytes ih =>
    have hcons : dump (byte :: bytes) = hexText 2 byte.toNat ++ [charOf ' '] ++ dump bytes := rfl
    simp only [hcons, List.length_append, length_hexText, ih, List.length_cons, List.length_nil]
    ring

theorem length_headerText (dataLen : ℕ) : (headerText dataLen).length = 8 := by
  simp only [headerText, List.length_append, length_hexText]
  rfl

theorem readDump_dump (bytes : List UInt8) : readDump (dump bytes) = some bytes := by
  induction bytes with
  | nil => rfl
  | cons byte bytes ih =>
    have hcons : dump (byte :: bytes) =
        hexChar (byte.toNat >>> 4) :: hexDigit byte.toNat 0 :: charOf ' ' :: dump bytes := by
      simp [dump, hexText_two byte.toNat_lt]
    have hbyte : readHex [hexChar (byte.toNat >>> 4), hexDigit byte.toNat 0] = some byte.toNat := by
      rw [← hexText_two byte.toNat_lt]
      exact readHex_hexText byte.toNat_lt
    rw [hcons, readDump, hbyte, ih]
    simp

theorem readHexArray_hexArrayText (caption : CString) (dataLen : ℕ) (bytes : List UInt8) :
    readHexArray caption.length (hexArrayText caption dataLen bytes) =
      some (min dataLen 0xFFF, bytes) := by
  have hlabel : ((hexArrayText caption dataLen bytes).drop (caption.length + 1)).take 3 =
      hexText 3 (min dataLen 0xFFF) := by
    have hsplit : hexArrayText caption dataLen bytes = caption ++ chars "[" ++
        (hexText 3 (min dataLen 0xFFF) ++ (chars "h]: " ++ dump bytes)) := by
      simp only [hexArrayText, headerText, List.append_assoc]
    have hlen : (caption ++ chars "[").length = caption.length + 1 := List.length_append
    rw [hsplit, ← hlen, List.drop_left, List.take_left' (length_hexText 3 _)]
  have hdump : (hexArrayText caption dataLen bytes).drop (caption.length + 8) = dump bytes := by
    rw [hexArrayText, ← length_headerText dataLen, ← List.length_append, List.drop_left]
  rw [readHexArray, hlabel, hdump, readHex_hexText (by omega), readDump_dump]
  rfl

theorem hexHeader_eq (b : Buffer UInt8) (p dataLen : ℕ) :
    hexHeader b p dataLen = b.fill p (headerText dataLen) := by
  unfold hexHeader headerText
  split
  · rename_i hle
    have hhigh : hexDigit (dataLen >>> 8 % 256) 0 = hexDigit dataLen 8 := by
      rw [hexDigit_eq, hexDigit_eq, Nat.shiftRight_eq_div_pow]
      congr 1
      omega
    have hmid : hexChar ((dataLen % 256 &&& 0xF0) >>> 4) = hexDigit dataLen 4 := by
      rw [Nat.shiftRight_and_distrib]
      change hexDigit (dataLen % 256) 4 = _
      rw [hexDigit_eq, hexDigit_eq]
      congr 1
      omega
    have hlow : hexDigit (dataLen % 256) 0 = hexDigit dataLen 0 := by
      rw [hexDigit_eq, hexDigit_eq]
      congr 1
      omega
    have hdigits : hexText 3 dataLen = [hexDigit dataLen 8, hexDigit dataLen 4, hexDigit dataLen 0] := by
      simp only [hexText_succ, hexText_zero, Nat.reduceMul]
    simp only [hhigh, hmid, hlow, ← hdigits, Nat.min_eq_left hle]
    have hsame : (chars "FFF").length = (hexText 3 dataLen).length := (length_hexText 3 _).symm
    exact fill_patch (chars "[") hsame (chars "h]: ")
  · rename_i hgt
    rw [Nat.min_eq_right (by omega)]
    rfl

theorem hexRounds_eq (data : Memory) (b : Buffer UInt8) (offset k m : ℕ) (hk : k + 3*m < 65536) :
    hexRounds data offset (b, k) m = (b.fill (offset + k) (dump (firstBytes data m)), k + 3*m) := by
  induction m with
  | zero => exact Prod.ext fill_nil.symm rfl
  | succ m ih =>
    have hsucc : firstBytes data (m+1) = firstBytes data m ++ [data m] := by
      simp [firstBytes, List.range_succ]
    have hlen : (dump (firstBytes data m)).length = 3*m := by
      rw [length_dump, length_firstBytes]
    rw [hexRounds, ih (by omega), hsucc, dump_append, ← fill_append, hlen]
    refine Prod.ext ?_ ?_
    · simp only [hexRound, Nat.add_assoc]
    · simp only [hexRound, toUint16]
      omega

theorem logFormatHexArray_eq (caption : CString) (data : Memory) (dataLen : UInt16)
    (b : Buffer UInt8) (offset : ℕ) (hpos : 0 < caption.length) (hlen : caption.length < 60000) :
    logFormatHexArray caption data dataLen b offset =
      (b.fill (min offset logPrependSizeMax)
        (hexArrayText caption dataLen.toNat
          (firstBytes data (min logHexCountMax dataLen.toNat))),
        caption.length + 8 + 3 * min logHexCountMax dataLen.toNat) := by
  have hnum : min logHexCountMax dataLen.toNat ≤ 100 := Nat.min_le_left _ _
  have hcaption : toUint16 caption.length = caption.length := Nat.mod_eq_of_lt (by omega)
  have hindex : toUint16 (caption.length + 8) = caption.length + 8 := Nat.mod_eq_of_lt (by omega)
  simp only [logFormatHexArray, hcaption, hindex, if_pos hpos, List.take_length, hexHeader_eq]
  rw [hexRounds_eq _ _ _ _ _ (by omega), fill_append, hexArrayText, ← fill_append (_ ++ _),
    List.length_append, length_headerText]

theorem length_hexArrayText (caption : CString) (data : Memory) (dataLen n : ℕ) :
    (hexArrayText caption dataLen (firstBytes data n)).length = caption.length + 8 + 3*n := by
  rw [hexArrayText, List.length_append, List.length_append, length_headerText, length_dump,
    length_firstBytes]

/-- The dump within the design limits: its text, the room it takes, and what is read
back from it. -/
theorem hex_array_exact (caption : CString) (hpos : 1 ≤ caption.length)
    (hmax : caption.length ≤ logCaptionSizeMax) (data : Memory) (dataLen : UInt16)
    (b : Buffer UInt8) (offset : ℕ) (hoffset : offset ≤ logPrependSizeMax) :
    let shown := firstBytes data (min dataLen.toNat logHexCountMax)
    let text := hexArrayText caption dataLen.toNat shown
    let r := logFormatHexArray caption data dataLen b offset
    r = (b.fill offset text, text.length) ∧
      offset + text.length ≤ logBuffSizeMax + logBufSizeOffset ∧
      (∀ i < offset, r.1 i = b i) ∧
      readHexArray caption.length text = some (min dataLen.toNat 0xFFF, shown) := by
  intro shown text r
  have hcaption : caption.length ≤ 20 := hmax
  have hoffset' : offset ≤ 20 := hoffset
  have hnum : min logHexCountMax dataLen.toNat ≤ 100 := Nat.min_le_left _ _
  have hshown : shown = firstBytes data (min logHexCountMax dataLen.toNat) := by
    rw [Nat.min_comm]
  have htext : text.length = caption.length + 8 + 3 * min logHexCountMax dataLen.toNat := by
    rw [show text = hexArrayText caption dataLen.toNat shown from rfl, hshown, length_hexArrayText]
  have hr : r = (b.fill offset text, text.length) := by
    rw [htext, show text = hexArrayText caption dataLen.toNat shown from rfl, hshown]
    have heq := logFormatHexArray_eq caption data dataLen b offset hpos (by omega)
    rwa [Nat.min_eq_left hoffset] at heq
  refine ⟨hr, ?_, fun i hi => ?_, readHexArray_hexArrayText caption dataLen.toNat shown⟩
  · rw [htext]
    change _ ≤ 392
    omega
  · rw [hr]
    exact fill_of_lt hi

theorem hex_array_exact_two :
    logFormatHexArray (chars "Rx") (fun i => 0xA0 + i.toUInt8) 2 Buffer.empty 5 =
        (Buffer.empty.fill 5 (chars "Rx[002h]: A0 A1 "), 16) ∧
      readHexArray 2 (chars "Rx[002h]: A0 A1 ") = some (2, [0xA0, 0xA1]) := by
  obtain ⟨htext, -, -, hread⟩ := hex_array_exact (chars "Rx") (by decide) (by decide)
    (fun i => 0xA0 + i.toUInt8) 2 Buffer.empty 5 (by decide)
  exact ⟨htext, hread⟩

/-- The branch that calls `VSNPRINTF_IMPL`, taken for any format. -/
def logFormatVsnprintf {Args : Type} (printf : Printf Args) (format : CString) (args : Args)
    (b : Buffer UInt8) (offset : ℕ) : Buffer UInt8 × ℕ :=
  let offset := min offset logPrependSizeMax
  let r := printf.vsnprintf b offset logContentSizeMax format args
  (r.1, toUint16 r.2)

/-- Up to the terminator both leave the same content, they return the same length, and
neither writes past the limit of the content. -/
def PathsAgree {Args : Type} (printf : Printf Args) (format : CString) (args : Args)
    (offset : ℕ) : Prop :=
  let start := min offset logPrependSizeMax
  (∃ content : CString, ∀ b,
    (logFormatStringArgs printf format args b offset).1 = b.fill start content ∧
      (logFormatVsnprintf printf format args b offset).1 = b.fill start (content ++ [0])) ∧
  (∀ b, (logFormatStringArgs printf format args b offset).2 =
    (logFormatVsnprintf printf format args b offset).2) ∧
  ∀ b i, start + logContentSizeMax ≤ i →
    (logFormatStringArgs printf format args b offset).1 i = b i ∧
      (logFormatVsnprintf printf format args b offset).1 i = b i

section Paths

variable {Args : Type} (printf : Printf Args) {format : CString}

theorem logFormatStringArgs_plain (hplain : charOf '%' ∉ format) (args : Args) (b : Buffer UInt8)
    (offset : ℕ) :
    logFormatStringArgs printf format args b offset =
      (b.fill (min offset logPrependSizeMax) (format.take (format.length % 65536)),
        format.length % 65536) :=
  if_neg hplain

theorem copy_past_limit (hplain : charOf '%' ∉ format) (args : Args) (b : Buffer UInt8)
    (offset : ℕ) (h : logContentSizeMax < format.length % 65536) :
    (logFormatStringArgs printf format args b offset).1.Written
      (min offset logPrependSizeMax + logContentSizeMax) := by
  have hmod : format.length % 65536 ≤ format.length := Nat.mod_le _ _
  rw [logFormatStringArgs_plain printf hplain]
  refine written_fill.mpr (Or.inl ⟨Nat.le_add_right _ _, ?_⟩)
  rw [List.length_take]
  omega

theorem logFormatVsnprintf_plain (hplain : charOf '%' ∉ format) (args : Args) (b : Buffer UInt8)
    (offset : ℕ) :
    logFormatVsnprintf printf format args b offset =
      (b.fill (min offset logPrependSizeMax) (format.take 329 ++ [0]),
        format.length % 65536) := by
  simp only [logFormatVsnprintf, Printf.vsnprintf, printf.text_plain format args hplain]
  rfl

/-- The copy has no limit, so the two agree only where the copied length is the one
that the other branch cuts to. -/
theorem string_paths_agree_iff (args : Args) (offset : ℕ) (hplain : charOf '%' ∉ format) :
    PathsAgree printf format args offset ↔
      format.length % 65536 = min format.length (logContentSizeMax - 1) := by
  have hcut : logContentSizeMax - 1 = 329 := rfl
  have hmod : format.length % 65536 ≤ format.length := Nat.mod_le _ _
  unfold PathsAgree
  simp only [logFormatStringArgs_plain printf hplain, logFormatVsnprintf_plain printf hplain, hcut]
  constructor
  · rintro ⟨⟨content, hcontent⟩, -, -⟩
    obtain ⟨hcopy, hprint⟩ := hcontent Buffer.empty
    have htake := List.append_cancel_right (empty_fill_inj hprint)
    have hlen := congrArg List.length ((empty_fill_inj hcopy).trans htake.symm)
    rw [List.length_take, List.length_take] at hlen
    omega
  · intro hlen
    have htake : format.take (format.length % 65536) = format.take 329 := by
      rw [hlen, Nat.min_comm, ← List.take_eq_take_min]
    have hshort : (format.take 329).length ≤ 329 := List.length_take_le _ _
    refine ⟨⟨format.take 329, fun b => ⟨by rw [htake], rfl⟩⟩, fun b => trivial, ?_⟩
    intro b i hi
    rw [logContentSizeMax_eq] at hi
    refine ⟨fill_of_le ?_, fill_of_le ?_⟩
    · rw [htake]
      omega
    · rw [List.length_append, List.length_singleton]
      omega

end Paths

def plainPrintf : Printf Unit where
  text format _ := format
  text_plain _ _ _ := rfl

theorem string_paths_agree_ok : PathsAgree plainPrintf (chars "ok") () 5 :=
  (string_paths_agree_iff plainPrintf () 5 (by decide)).mpr (by decide)

theorem string_paths_disagree :
    ¬ PathsAgree plainPrintf (List.replicate 400 (charOf 'a')) () 0 := by
  rintro ⟨-, -, houtside⟩
  have hplain : charOf '%' ∉ List.replicate 400 (charOf 'a') := by
    rw [List.mem_replicate]
    decide
  have hlong : logContentSizeMax < (List.replicate 400 (charOf 'a')).length % 65536 := by
    rw [List.length_replicate, logContentSizeMax_eq]
    omega
  have hcell := copy_past_limit plainPrintf hplain () Buffer.empty 0 hlong
  rw [Written, (houtside Buffer.empty _ le_rfl).1] at hcell
  exact hcell rfl

def tickText (t : UInt32) : CString := chars "[" ++ hexText 5 t.toNat ++ chars "]"

def nameText (name : CString) : CString :=
  let nameLen := name.length % 256
  chars "[" ++ (if nameLen > 0 then name.take nameLen else chars "@") ++ chars "]"

def symbolText (level : LogLevel) : CString := List.replicate logLevelSymbolSize (levelSymbol level)

def prefixText (s : LogState) (level : LogLevel) : CString :=
  (if s.cfg.timeTickEnabled then tickText s.tickTime else []) ++
    (if s.cfg.taskNameEnabled then nameText s.taskName else []) ++
    (if s.cfg.levelSymbolEnabled ∧ level.toNat ≤ s.cfg.prefixSymbolLevel.toNat then
      symbolText level else [])

theorem logFormatPrependTickTime_eq (t : UInt32) (b : Buffer UInt8) (offset : ℕ) :
    logFormatPrependTickTime t b offset = (b.fill offset (tickText t), (tickText t).length) := by
  have hdigits : hexText 5 t.toNat = [hexDigit t.toNat 16, hexDigit t.toNat 12,
      hexDigit t.toNat 8, hexDigit t.toNat 4, hexDigit t.toNat 0] := by
    simp only [hexText_succ, hexText_zero, Nat.reduceMul]
  rw [tickText, hdigits]
  rfl

theorem logFormatPrependTaskName_eq (name : CString) (b : Buffer UInt8) (offset : ℕ) :
    logFormatPrependTaskName name b offset =
      (b.fill offset (nameText name), (nameText name).length) := by
  simp only [logFormatPrependTaskName, nameText]
  rw [← fill_append, ← fill_append]
  refine Prod.ext ?_ ?_
  · simp only [List.length_append]
    rfl
  · simp only [List.length_append]
    rfl

theorem logFormatPrependLevelSymbol_eq (level : LogLevel) (b : Buffer UInt8) (offset : ℕ) :
    logFormatPrependLevelSymbol level b offset =
      (b.fill offset (symbolText level), (symbolText level).length) :=
  Prod.ext rfl (List.length_replicate).symm

def filled (xs : CString) : Buffer UInt8 × ℕ := (Buffer.empty.fill 0 xs, xs.length)

theorem filled_append {r : Buffer UInt8 × ℕ} {xs ys : CString} (hr : r = filled xs)
    (h : xs.length + ys.length < 65536) :
    (r.1.fill r.2 ys, toUint16 (r.2 + ys.length)) = filled (xs ++ ys) := by
  subst hr
  have happend := fill_append (b := Buffer.empty) (p := 0) xs ys
  rw [Nat.zero_add] at happend
  exact Prod.ext happend ((Nat.mod_eq_of_lt h).trans List.length_append.symm)

theorem filled_ite {r t : Buffer UInt8 × ℕ} {xs ys : CString} {c : Prop} [Decidable c]
    (hr : r = filled xs) (ht : t = (r.1.fill r.2 ys, ys.length))
    (h : xs.length + ys.length < 65536) :
    (if c then (t.1, toUint16 (r.2 + t.2)) else r) = filled (xs ++ if c then ys else []) := by
  subst ht
  split
  · exact filled_append hr h
  · rw [hr, List.append_nil]

theorem length_nameText (name : CString) :
    (nameText name).length = 2 + max 1 (name.length % 256) := by
  have hshown : (if name.length % 256 > 0 then name.take (name.length % 256)
      else chars "@").length = max 1 (name.length % 256) := by
    split
    · rw [List.length_take]
      omega
    · change 1 = _
      omega
  simp only [nameText, List.length_append, hshown]
  change 1 + _ + 1 = _
  omega

theorem length_part_le (c : Prop) [Decidable c] (xs : CString) :
    (if c then xs else []).length ≤ xs.length := by
  split
  · exact le_rfl
  · exact Nat.zero_le _

theorem prependStateInfo_eq (s : LogState) (level : LogLevel) :
    prependStateInfo s level Buffer.empty = filled (prefixText s level) := by
  have htickLen : (tickText s.tickTime).length = 7 := rfl
  have hsymbolLen : (symbolText level).length = 2 := rfl
  have hnameLen := length_nameText s.taskName
  have hlt : s.taskName.length % 256 < 256 := Nat.mod_lt _ (by decide)
  have htickPart := length_part_le s.cfg.timeTickEnabled (tickText s.tickTime)
  have hnamePart := length_part_le s.cfg.taskNameEnabled (nameText s.taskName)
  have hstart : (Buffer.empty, 0) = filled [] := by
    rw [filled, fill_nil]
    rfl
  have htick := filled_ite (c := s.cfg.timeTickEnabled) hstart
    (logFormatPrependTickTime_eq s.tickTime _ _) (by rw [List.length_nil]; omega)
  rw [List.nil_append] at htick
  have hname := filled_ite (c := s.cfg.taskNameEnabled) htick
    (logFormatPrependTaskName_eq s.taskName _ _) (by omega)
  exact filled_ite hname (logFormatPrependLevelSymbol_eq level _ _)
    (by rw [List.length_append]; omega)

end BleFirmware.LogText
