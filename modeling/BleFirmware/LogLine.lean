import BleFirmware.LogWritten

/-!
# The bytes of a log line

The prefix is laid out part by part from the start of the buffer. A body joins it
without a gap when the prefix is within `LOG_PREPEND_SIZE_MAX` and, for a dump,
when there is a caption; then the buffer is filled with the whole line.
-/

namespace BleFirmware.LogLine
open Bytes Buffer LogText LogWritten

def lineEnd (eol : Bool) (len : ℕ) : CString :=
  if eol = true ∧ len ≤ logContentSizeMax then chars "\r\n" else []

theorem lineEnd_cases (eol : Bool) (len : ℕ) :
    (lineEnd eol len = chars "\r\n" ∧ eol = true ∧ len ≤ logContentSizeMax) ∨
      (lineEnd eol len = [] ∧ (eol = true → logContentSizeMax < len)) := by
  unfold lineEnd
  by_cases h : eol = true ∧ len ≤ logContentSizeMax
  · exact Or.inl ⟨if_pos h, h⟩
  · exact Or.inr ⟨if_neg h, fun heol => Nat.lt_of_not_le fun hle => h ⟨heol, hle⟩⟩

theorem logFormatAppendEol_eq (eol : Bool) (b : Buffer UInt8) (len : ℕ) :
    (if eol then logFormatAppendEol b len else (b, len)) =
      (b.fill len (lineEnd eol len), len + (lineEnd eol len).length) := by
  cases eol with
  | false => exact Prod.ext fill_nil.symm rfl
  | true =>
    rw [if_pos rfl, logFormatAppendEol, lineEnd]
    by_cases h : len ≤ logContentSizeMax
    · rw [if_pos h, if_pos ⟨rfl, h⟩]
      rfl
    · rw [if_neg h, if_neg fun hand => h hand.2, fill_nil]
      rfl

theorem printLine_eq (s : LogState) (level : LogLevel) (eol : Bool)
    {body : Buffer UInt8 → ℕ → Buffer UInt8 × ℕ} {b : Buffer UInt8} {k len : ℕ}
    (hbody : body (filled (prefixText s level)).1 (prefixText s level).length = (b, k))
    (hlen : len = (prefixText s level).length + k) (hlt : len < 65536) :
    printLine s level eol body = (b.fill len (lineEnd eol len), len + (lineEnd eol len).length) := by
  have hbody' : body (filled (prefixText s level)).1 (filled (prefixText s level)).2 = (b, k) := hbody
  have hwrap : toUint16 ((filled (prefixText s level)).2 + k) = len := by
    rw [filled, ← hlen]
    exact Nat.mod_eq_of_lt hlt
  rw [← logFormatAppendEol_eq]
  simp only [printLine, prependStateInfo_eq, hbody', hwrap]

theorem printLine_filled (s : LogState) (level : LogLevel) (eol : Bool)
    {body : Buffer UInt8 → ℕ → Buffer UInt8 × ℕ} {text : CString}
    (hbody : body (filled (prefixText s level)).1 (prefixText s level).length =
      ((filled (prefixText s level)).1.fill (prefixText s level).length text, text.length))
    (hlt : (prefixText s level ++ text).length < 65536) :
    printLine s level eol body =
      filled (prefixText s level ++ text ++ lineEnd eol (prefixText s level ++ text).length) := by
  have hjoin := fill_append (b := Buffer.empty) (p := 0) (prefixText s level) text
  have hend := fill_append (b := Buffer.empty) (p := 0) (prefixText s level ++ text)
    (lineEnd eol (prefixText s level ++ text).length)
  rw [Nat.zero_add] at hjoin hend
  rw [printLine_eq s level eol hbody List.length_append hlt, filled, filled, hjoin, hend]
  exact Prod.ext rfl List.length_append.symm

/-- The bytes handed over are a line with its end, within the size that the limits of
its parts give. -/
def Terminated (t : Buffer UInt8 × ℕ) : Prop :=
  (∃ line : CString, t.1.cells 0 t.2 = (line ++ chars "\r\n").map some) ∧ t.2 ≤ logBuffSizeMax

theorem terminated_filled {line : CString} (h : (line ++ chars "\r\n").length ≤ logBuffSizeMax) :
    Terminated (filled (line ++ chars "\r\n")) :=
  ⟨⟨line, cells_fill⟩, h⟩

theorem not_terminated_space (front : CString) : ¬ Terminated (filled (front ++ [charOf ' '])) := by
  rintro ⟨⟨line, hcells⟩, -⟩
  have hfilled : (filled (front ++ [charOf ' '])).1.cells 0 (filled (front ++ [charOf ' '])).2 =
      (front ++ [charOf ' ']).map some := cells_fill
  rw [hfilled] at hcells
  have htext := (List.map_inj_right fun _ _ => Option.some.inj).mp hcells
  have hlast := congrArg List.getLast? htext
  have hsplit : line ++ chars "\r\n" = line ++ [charOf '\r'] ++ [charOf '\n'] :=
    (List.append_assoc line [charOf '\r'] [charOf '\n']).symm
  rw [hsplit, List.getLast?_concat, List.getLast?_concat] at hlast
  exact absurd hlast (by decide)

theorem hexArrayText_eq_append (caption : CString) (dataLen : ℕ) (bytes : List UInt8) :
    ∃ front, hexArrayText caption dataLen bytes = front ++ [charOf ' '] := by
  obtain rfl | ⟨init, byte, rfl⟩ := bytes.eq_nil_or_concat
  · refine ⟨caption ++ (chars "[" ++ hexText 3 (min dataLen 0xFFF) ++ chars "h]:"), ?_⟩
    simp only [hexArrayText, headerText, List.append_assoc]
    rfl
  · refine ⟨caption ++ headerText dataLen ++ (dump init ++
      [hexChar (byte.toNat >>> 4), hexDigit byte.toNat 0]), ?_⟩
    rw [hexArrayText, List.concat_eq_append, dump_append]
    simp only [List.append_assoc]
    rfl

theorem printLine_hexArray (s : LogState) (level : LogLevel) (eol : Bool) {caption : CString}
    (data : Memory) (dataLen : UInt16) (hlead : prefixLen s level ≤ logPrependSizeMax)
    (hpos : 0 < caption.length) (hlen : caption.length ≤ 392) :
    let text := prefixText s level ++ hexArrayText caption dataLen.toNat
      (firstBytes data (min logHexCountMax dataLen.toNat))
    printLine s level eol (logFormatHexArray caption data dataLen) =
      filled (text ++ lineEnd eol text.length) := by
  intro text
  have hnum : min logHexCountMax dataLen.toNat ≤ 100 := Nat.min_le_left _ _
  have hbody := logFormatHexArray_eq caption data dataLen (filled (prefixText s level)).1
    (prefixText s level).length hpos (by omega)
  rw [← length_prefixText] at hlead
  rw [Nat.min_eq_left hlead, ← length_hexArrayText caption data dataLen.toNat] at hbody
  refine printLine_filled s level eol hbody ?_
  rw [List.length_append, length_hexArrayText]
  rw [logPrependSizeMax_eq] at hlead
  omega

theorem terminated_hexArray_iff (s : LogState) (level : LogLevel) {caption : CString}
    (data : Memory) (dataLen : UInt16) (hlead : prefixLen s level ≤ logPrependSizeMax)
    (hpos : 0 < caption.length) (hmax : caption.length ≤ logCaptionSizeMax) :
    Terminated (printLine s level true (logFormatHexArray caption data dataLen)) ↔
      prefixLen s level + caption.length + 8 + 3 * min logHexCountMax dataLen.toNat ≤
        logContentSizeMax := by
  have hcaption : caption.length ≤ 20 := hmax
  rw [printLine_hexArray s level true data dataLen hlead hpos (by omega)]
  obtain ⟨front, hfront⟩ := hexArrayText_eq_append caption dataLen.toNat
    (firstBytes data (min logHexCountMax dataLen.toNat))
  have hlen := length_hexArrayText caption data dataLen.toNat (min logHexCountMax dataLen.toNat)
  have htext : (prefixText s level ++ hexArrayText caption dataLen.toNat
      (firstBytes data (min logHexCountMax dataLen.toNat))).length =
      prefixLen s level + caption.length + 8 + 3 * min logHexCountMax dataLen.toNat := by
    rw [List.length_append, length_prefixText, hlen]
    omega
  rw [htext]
  by_cases hroom : prefixLen s level + caption.length + 8 +
      3 * min logHexCountMax dataLen.toNat ≤ logContentSizeMax
  · refine iff_of_true ?_ hroom
    rw [lineEnd, if_pos ⟨rfl, hroom⟩]
    refine terminated_filled ?_
    rw [List.length_append, htext]
    exact Nat.add_le_add_right (hroom.trans (by decide)) 2
  · refine iff_of_false ?_ hroom
    rw [lineEnd, if_neg fun hand => hroom hand.2, List.append_nil, hfront, ← List.append_assoc]
    exact not_terminated_space _

/-- The end is added up to `LOG_CONTENT_SIZE_MAX`, from which the prefix is subtracted,
yet it is compared with a length that counts the prefix. -/
theorem hex_line_terminated_iff (s : LogState) (level : LogLevel) (caption : CString)
    (pData : Option Memory) (dataLen : UInt16) (hlead : prefixLen s level ≤ logPrependSizeMax)
    (hpos : 1 ≤ caption.length) (hmax : caption.length ≤ logCaptionSizeMax) :
    (∀ t ∈ logPrintHexArray s level true caption pData dataLen, Terminated t) ↔
      pData = none ∨ level.toNat < s.logLevel.toNat ∨
        prefixLen s level + caption.length + 8 + 3 * min logHexCountMax dataLen.toNat ≤
          logContentSizeMax := by
  cases pData with
  | none => simp [logPrintHexArray]
  | some data =>
    have hline := terminated_hexArray_iff s level data dataLen hlead hpos hmax
    by_cases hlevel : level.toNat < s.logLevel.toNat
    · simp [logPrintHexArray, hlevel]
    · simpa [logPrintHexArray, hlevel] using hline

theorem hex_line_terminated_output :
    ∃ t, logPrintHexArray appState .info true (chars "Output") (some fun _ => 0x5A) 3 = some t ∧
      Terminated t := by
  have hall := (hex_line_terminated_iff appState .info (chars "Output") (some fun _ => 0x5A) 3
    (by decide) (by decide) (by decide)).mpr (by decide)
  exact ⟨_, rfl, hall _ rfl⟩

theorem hex_line_not_terminated :
    prefixLen appState .info ≤ logPrependSizeMax ∧
      ¬ ∀ t ∈ logPrintHexArray appState .info true (chars "received measurement")
        (some fun _ => 0) 100, Terminated t := by
  have hlead : prefixLen appState .info ≤ logPrependSizeMax := by decide
  have hline := terminated_hexArray_iff appState .info (fun _ => 0) 100 hlead
    (show 0 < (chars "received measurement").length by decide) (by decide)
  exact ⟨hlead, fun hall => absurd (hline.mp (hall _ rfl)) (by decide)⟩

/-- A call for a string and a number, or for a hex dump, whose pointers are not NULL. -/
inductive Message
  | stringNumber (string : CString) (number : UInt32)
  | hexArray (caption : CString) (data : Memory) (dataLen : UInt16)

namespace Message

def print (s : LogState) (level : LogLevel) (eol : Bool) : Message → Option (Buffer UInt8 × ℕ)
  | stringNumber string number => logPrintStringNumber s level eol (some string) number
  | hexArray caption data dataLen => logPrintHexArray s level eol caption (some data) dataLen

def format : Message → Buffer UInt8 → ℕ → Buffer UInt8 × ℕ
  | stringNumber string number => logFormatStringNumber (some string) number
  | hexArray caption data dataLen => logFormatHexArray caption data dataLen

def body : Message → CString
  | stringNumber string number => string ++ chars ": " ++ (chars "0x" ++ numberDigits number.toNat)
  | hexArray caption data dataLen =>
    let bytes := firstBytes data (min logHexCountMax dataLen.toNat)
    if caption = [] then dump bytes else hexArrayText caption dataLen.toNat bytes

def HasCaption : Message → Prop
  | stringNumber _ _ => True
  | hexArray caption _ _ => caption ≠ []

theorem print_eq (s : LogState) (level : LogLevel) (eol : Bool) (m : Message) :
    m.print s level eol =
      if level.toNat < s.logLevel.toNat then none else some (printLine s level eol m.format) := by
  cases m <;> rfl

theorem format_eq {m : Message} (hcaption : m.HasCaption) (hlen : m.body.length ≤ logBufferSize)
    (b : Buffer UInt8) (offset : ℕ) :
    m.format b offset = (b.fill (min offset logPrependSizeMax) m.body, m.body.length) := by
  rw [logBufferSize_eq] at hlen
  cases m with
  | stringNumber string number =>
    simp only [body, List.length_append] at hlen
    rw [format, logFormatStringNumber_eq string number b offset (by omega)]
    refine Prod.ext rfl ?_
    simp only [body, List.length_append]
    change _ = _ + 2 + (2 + _)
    omega
  | hexArray caption data dataLen =>
    have hbody : (hexArray caption data dataLen).body = hexArrayText caption dataLen.toNat
        (firstBytes data (min logHexCountMax dataLen.toNat)) := if_neg hcaption
    rw [hbody, length_hexArrayText] at hlen
    rw [hbody, length_hexArrayText]
    exact logFormatHexArray_eq caption data dataLen b offset (List.length_pos_of_ne_nil hcaption)
      (by omega)

theorem format_of_not_hasCaption {m : Message} (hcaption : ¬ m.HasCaption) (b : Buffer UInt8)
    (offset : ℕ) :
    (m.format b offset).2 = m.body.length + 8 ∧ m.body.length ≤ 300 := by
  cases m with
  | stringNumber string number => exact absurd trivial hcaption
  | hexArray caption data dataLen =>
    obtain rfl : caption = [] := not_not.mp hcaption
    have hnum : min logHexCountMax dataLen.toNat ≤ 100 := Nat.min_le_left _ _
    have hrounds := hexRounds_eq data b (min offset logPrependSizeMax) 8
      (min logHexCountMax dataLen.toNat) (by omega)
    have hformat : (hexArray [] data dataLen).format b offset = hexRounds data
      (min offset logPrependSizeMax) (b, 8) (min logHexCountMax dataLen.toNat) := rfl
    have hbody : (hexArray [] data dataLen).body =
      dump (firstBytes data (min logHexCountMax dataLen.toNat)) := rfl
    rw [hformat, hrounds, hbody, length_dump, length_firstBytes]
    omega

end Message

/-- What is handed over is the cut prefix, the body and maybe a line end, and nothing
else. -/
def IsLine (s : LogState) (level : LogLevel) (eol : Bool) (m : Message)
    (t : Buffer UInt8 × ℕ) : Prop :=
  let pre := (prefixText s level).take logPrependSizeMax
  ∃ tail : CString, (tail = [] ∨ eol = true ∧ tail = chars "\r\n") ∧
    t.2 = pre.length + m.body.length + tail.length ∧
    t.1.cells 0 t.2 = (pre ++ m.body ++ tail).map some

theorem isLine_of_prefix_le (s : LogState) (level : LogLevel) (eol : Bool) {m : Message}
    (hlead : (prefixText s level).length ≤ logPrependSizeMax) (hcaption : m.HasCaption)
    (hlen : m.body.length ≤ logBufferSize) :
    IsLine s level eol m (printLine s level eol m.format) := by
  have hbody := Message.format_eq hcaption hlen (filled (prefixText s level)).1
    (prefixText s level).length
  rw [Nat.min_eq_left hlead] at hbody
  have hlt : (prefixText s level ++ m.body).length < 65536 := by
    rw [logBufferSize_eq] at hlen
    rw [logPrependSizeMax_eq] at hlead
    rw [List.length_append]
    omega
  rw [printLine_filled s level eol hbody hlt]
  refine ⟨lineEnd eol (prefixText s level ++ m.body).length, ?_, ?_, ?_⟩
  · obtain ⟨hend, heol, -⟩ | ⟨hend, -⟩ := lineEnd_cases eol (prefixText s level ++ m.body).length
    · exact Or.inr ⟨heol, hend⟩
    · exact Or.inl hend
  · rw [List.take_of_length_le hlead, filled]
    simp only [List.length_append]
  · rw [List.take_of_length_le hlead]
    exact cells_fill

theorem not_isLine_of_not_hasCaption (s : LogState) (level : LogLevel) (eol : Bool) {m : Message}
    (hcaption : ¬ m.HasCaption) : ¬ IsLine s level eol m (printLine s level eol m.format) := by
  rintro ⟨tail, htail, hlen, -⟩
  have htailLen : tail.length ≤ 2 := by
    obtain rfl | ⟨-, rfl⟩ := htail
    · exact Nat.zero_le _
    · exact le_rfl
  obtain ⟨hret, hbody⟩ := Message.format_of_not_hasCaption hcaption
    (filled (prefixText s level)).1 (prefixText s level).length
  have hlead := length_prefixText_le s level
  have hpair : m.format (filled (prefixText s level)).1 (prefixText s level).length =
      ((m.format (filled (prefixText s level)).1 (prefixText s level).length).1,
        m.body.length + 8) := Prod.ext rfl hret
  rw [printLine_eq s level eol hpair rfl (by omega), List.length_take] at hlen
  simp only at hlen
  omega

/-- After a longer prefix the body starts before the prefix ends, but the lengths are
added. Only a cut of the size of a line end could hide it, and then the end is not
written. -/
theorem not_isLine_of_lt_prefix (s : LogState) (level : LogLevel) (eol : Bool) {m : Message}
    (hlead : logPrependSizeMax < (prefixText s level).length) (hcaption : m.HasCaption)
    (hlen : m.body.length ≤ logBufferSize) :
    ¬ IsLine s level eol m (printLine s level eol m.format) := by
  rintro ⟨tail, htail, hret, hcells⟩
  have hbody := Message.format_eq hcaption hlen (filled (prefixText s level)).1
    (prefixText s level).length
  have hmax := length_prefixText_le s level
  have hcrlf : (chars "\r\n").length = 2 := rfl
  rw [logBufferSize_eq] at hlen
  rw [logPrependSizeMax_eq] at hlead hbody
  rw [Nat.min_eq_right hlead.le] at hbody
  have hpre : ((prefixText s level).take logPrependSizeMax).length = 20 := by
    rw [List.length_take, logPrependSizeMax_eq]
    omega
  rw [printLine_eq s level eol hbody rfl (by omega)] at hret hcells
  rw [hpre] at hret
  simp only at hret hcells
  obtain ⟨hend, -, -⟩ | ⟨hend, hlong⟩ := lineEnd_cases eol
    ((prefixText s level).length + m.body.length)
  · rw [hend, hcrlf] at hret
    obtain rfl | ⟨-, rfl⟩ := htail
    · rw [List.length_nil] at hret
      omega
    · omega
  · rw [hend, List.length_nil] at hret
    obtain rfl | ⟨heol, rfl⟩ := htail
    · rw [List.length_nil] at hret
      omega
    · rw [hcrlf] at hret
      have hroom := hlong heol
      rw [logContentSizeMax_eq] at hroom
      -- the cell after the body is not one of the prefix either
      have hcell := written_of_cells hcells (show 20 + m.body.length < _ by omega)
      rw [hend, fill_nil, written_fill, filled, written_fill] at hcell
      obtain hin | hin | hempty := hcell
      · omega
      · omega
      · exact hempty rfl

/-- The line is its parts exactly when the prefix needs no cut and a dump has a
caption. -/
theorem line_is_prefix_then_body_iff (s : LogState) (level : LogLevel) (eol : Bool) (m : Message)
    (hfits : min (prefixText s level).length logPrependSizeMax + m.body.length ≤ logBufferSize) :
    (∀ t ∈ m.print s level eol, IsLine s level eol m t) ↔
      level.toNat < s.logLevel.toNat ∨
        ((prefixText s level).length ≤ logPrependSizeMax ∧ m.HasCaption) := by
  have hlen : m.body.length ≤ logBufferSize := (Nat.le_add_left _ _).trans hfits
  rw [Message.print_eq]
  by_cases hlevel : level.toNat < s.logLevel.toNat
  · simp [hlevel]
  · rw [if_neg hlevel]
    simp only [Option.mem_def, Option.some.injEq, forall_eq', hlevel, false_or]
    constructor
    · intro hline
      by_contra hnot
      by_cases hcaption : m.HasCaption
      · have hlead : logPrependSizeMax < (prefixText s level).length :=
          Nat.lt_of_not_le fun hle => hnot ⟨hle, hcaption⟩
        exact not_isLine_of_lt_prefix s level eol hlead hcaption hlen hline
      · exact not_isLine_of_not_hasCaption s level eol hcaption hline
    · intro hand
      exact isLine_of_prefix_le s level eol hand.1 hand.2 hlen

theorem line_is_prefix_then_body_rx :
    ∃ t, (Message.hexArray (chars "Rx") (fun _ => 0x5A) 2).print appState .info true = some t ∧
      IsLine appState .info true (.hexArray (chars "Rx") (fun _ => 0x5A) 2) t := by
  have hall := (line_is_prefix_then_body_iff appState .info true
    (.hexArray (chars "Rx") (fun _ => 0x5A) 2) (by decide)).mpr
    (Or.inr ⟨by decide, show chars "Rx" ≠ [] by decide⟩)
  exact ⟨_, rfl, hall _ rfl⟩

/-- The time and the name `central_task` give a prefix of 21 bytes. -/
def centralState : LogState where
  cfg := ⟨true, true, false, .debug⟩
  logLevel := .info
  taskName := chars "central_task"
  tickTime := 0x1234

theorem long_prefix_not_line :
    ¬ ∀ t ∈ (Message.stringNumber (chars "id") 7).print centralState .info true,
      IsLine centralState .info true (.stringNumber (chars "id") 7) t := by
  intro hall
  exact not_isLine_of_lt_prefix centralState .info true (m := .stringNumber (chars "id") 7)
    (by decide) trivial (by decide) (hall _ rfl)

end BleFirmware.LogLine
