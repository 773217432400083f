import BleFirmware.LogText

/-!
# What a log call hands to the backend

The written cells of the local buffer are tracked through the prefix and the
three bodies. The prefix leaves an initial part of the buffer written, and a
body extends it from the cut prefix on, except that a hex dump without a caption
leaves its header cells out.
-/

namespace BleFirmware.LogWritten
open Bytes Buffer LogText

variable {Args : Type}

inductive LogCall (Args : Type)
  | format (pFormat : Option CString) (args : Args)
  | stringNumber (pString : Option CString) (number : UInt32)
  | hexArray (caption : CString) (pData : Option Memory) (dataLen : UInt16)

def LogCall.print (printf : Printf Args) (s : LogState) (level : LogLevel) (eol : Bool) :
    LogCall Args → Option (Buffer UInt8 × ℕ)
  | .format pFormat args => logPrintFormat printf s level eol pFormat args
  | .stringNumber pString number => logPrintStringNumber s level eol pString number
  | .hexArray caption pData dataLen => logPrintHexArray s level eol caption pData dataLen

/-- A call writes only inside its buffer, and what it hands over is written. -/
def OnlyWritten (r : Option (Buffer UInt8 × ℕ)) : Prop :=
  ∀ t ∈ r, t.1.Within logBufferSize t.2

def LogCall.Skipped (s : LogState) (level : LogLevel) : LogCall Args → Prop
  | .format pFormat _ => pFormat = none ∨ level.toNat < s.logLevel.toNat
  | .stringNumber pString _ => pString = none ∨ level.toNat < s.logLevel.toNat
  | .hexArray _ pData _ => pData = none ∨ level.toNat < s.logLevel.toNat

/-- The size of the prefix: the time, the name or `@` in brackets, and the symbol. -/
def prefixLen (s : LogState) (level : LogLevel) : ℕ :=
  (if s.cfg.timeTickEnabled then 7 else 0) +
    (if s.cfg.taskNameEnabled then 2 + max 1 (s.taskName.length % 256) else 0) +
    (if s.cfg.levelSymbolEnabled ∧ level.toNat ≤ s.cfg.prefixSymbolLevel.toNat then 2 else 0)

def numberLen (number : ℕ) : ℕ :=
  if number = 0 then 3 else if number ≤ 0xFF then 4 else if number ≤ 0xFFFF then 6 else 10

/-- The size of the text of a format, and the bytes that are written for it. -/
def FormatFits (printf : Printf Args) (n : ℕ) (format : CString) (args : Args) : Prop :=
  let start := min n logPrependSizeMax
  if charOf '%' ∈ format then
    let len := (printf.text format args).length
    len % 65536 = 0 ∨ 65536 ≤ n + len % 65536 ∨
      n + len % 65536 ≤ start + min (len+1) logContentSizeMax
  else
    let len := format.length % 65536
    start + len ≤ logBufferSize ∧ (n ≤ logPrependSizeMax ∨ len = 0)

def StringNumberFits (n : ℕ) (string : CString) (number : UInt32) : Prop :=
  n ≤ logPrependSizeMax ∧
    n + string.length % 65536 + 2 + numberLen number.toNat ≤ logBufferSize

def HexArrayFits (n : ℕ) (caption : CString) (dataLen : UInt16) : Prop :=
  0 < caption.length % 65536 ∧ n ≤ logPrependSizeMax ∧
    n + caption.length % 65536 + 8 + 3 * min logHexCountMax dataLen.toNat ≤ logBufferSize

/-- The condition on the body of a call after a prefix of `n` bytes. -/
def LogCall.Fits (printf : Printf Args) (n : ℕ) : LogCall Args → Prop
  | .format pFormat args => ∀ format ∈ pFormat, FormatFits printf n format args
  | .stringNumber pString number => ∀ string ∈ pString, StringNumberFits n string number
  | .hexArray caption _ dataLen => HexArrayFits n caption dataLen

def Ready (r : Buffer UInt8 × ℕ) (n : ℕ) : Prop := r.1.FilledTo n ∧ r.2 = n

theorem length_prefixText (s : LogState) (level : LogLevel) :
    (prefixText s level).length = prefixLen s level := by
  simp only [prefixText, prefixLen, List.length_append]
  congr 1
  · congr 1
    · split <;> rfl
    · split
      · exact length_nameText s.taskName
      · rfl
  · split <;> rfl

theorem prefixLen_le (s : LogState) (level : LogLevel) : prefixLen s level ≤ 266 := by
  unfold prefixLen
  have hname : s.taskName.length % 256 < 256 := Nat.mod_lt _ (by decide)
  split <;> split <;> split <;> omega

theorem length_prefixText_le (s : LogState) (level : LogLevel) :
    (prefixText s level).length ≤ 266 :=
  (length_prefixText s level).trans_le (prefixLen_le s level)

theorem ready_prependStateInfo (s : LogState) (level : LogLevel) :
    Ready (prependStateInfo s level Buffer.empty) (prefixLen s level) := by
  have hfill := filledTo_empty.append (prefixText s level)
  rw [Nat.zero_add] at hfill
  rw [prependStateInfo_eq, ← length_prefixText]
  exact ⟨hfill, rfl⟩

variable {b : Buffer UInt8} {n : ℕ}

theorem filledTo_text (hb : b.FilledTo n) {p : ℕ} (hp : p ≤ n) (text : CString) :
    (b.fill p (text.take (toUint16 text.length))).FilledTo (max n (p + text.length % 65536)) := by
  have hlen : (text.take (toUint16 text.length)).length = text.length % 65536 := by
    rw [List.length_take, toUint16]
    omega
  rw [← hlen]
  exact hb.fill hp _

theorem formatStringArgs_within_iff (printf : Printf Args) (format : CString) (args : Args)
    (hb : b.FilledTo n) (hn : n ≤ 266) :
    (logFormatStringArgs printf format args b n).1.Within logBufferSize
        (toUint16 (n + (logFormatStringArgs printf format args b n).2)) ↔
      FormatFits printf n format args := by
  have hstart : min n logPrependSizeMax ≤ n := Nat.min_le_left _ _
  by_cases hc : charOf '%' ∈ format
  · have hfill := hb.fill hstart
      ((printf.text format args).take (logContentSizeMax-1) ++ [0])
    have hlen : ((printf.text format args).take (logContentSizeMax-1) ++ [0]).length =
        min ((printf.text format args).length + 1) logContentSizeMax := by
      rw [List.length_append, List.length_take, List.length_singleton, logContentSizeMax_eq]
      omega
    rw [hlen] at hfill
    simp only [logFormatStringArgs, FormatFits, if_pos hc, Printf.vsnprintf]
    rw [hfill.within_iff]
    rw [logBufferSize_eq, logContentSizeMax_eq, logPrependSizeMax_eq, toUint16, toUint16]
    omega
  · have hfill := filledTo_text hb hstart format
    simp only [logFormatStringArgs, FormatFits, if_neg hc]
    rw [hfill.within_iff]
    rw [logBufferSize_eq, logPrependSizeMax_eq, toUint16, toUint16]
    omega

theorem length_numberDigits (number : ℕ) :
    2 + (numberDigits number).length = numberLen number := by
  unfold numberDigits numberLen
  split <;> [rfl; split <;> [rfl; split <;> rfl]]

theorem numberLen_le (number : ℕ) : numberLen number ≤ 10 := by
  unfold numberLen
  split <;> [omega; split <;> [omega; split <;> omega]]

theorem filledTo_number (hb : b.FilledTo n) (number : UInt32) {p : ℕ} (hp : p ≤ n) :
    (logFormatNumber number b p).1.FilledTo (max n (p + numberLen number.toNat)) := by
  have hlen : (chars "0x" ++ numberDigits number.toNat).length = numberLen number.toNat :=
    List.length_append.trans (length_numberDigits number.toNat)
  rw [logFormatNumber_eq, ← hlen]
  exact hb.fill hp _

theorem number_ret (number : UInt32) (b : Buffer UInt8) (p : ℕ) :
    (logFormatNumber number b p).2 = numberLen number.toNat :=
  length_numberDigits number.toNat

theorem written_number {i : ℕ} (h : b.Written i) (number : UInt32) (p : ℕ) :
    (logFormatNumber number b p).1.Written i :=
  (h.fill p _).fill (p+2) _

theorem max_max_of_le {p q : ℕ} (h : p ≤ q) : max (max n p) q = max n q := by
  rw [Nat.max_assoc, Nat.max_eq_right h]

theorem formatStringNumber_within_iff (string : CString) (number : UInt32)
    (hb : b.FilledTo n) (hn : n ≤ 266) :
    (logFormatStringNumber (some string) number b n).1.Within logBufferSize
        (toUint16 (n + (logFormatStringNumber (some string) number b n).2)) ↔
      StringNumberFits n string number := by
  have hstart : min n 20 ≤ n := Nat.min_le_left _ _
  have hdig := numberLen_le number.toNat
  have hc : toUint16 string.length = string.length % 65536 := rfl
  have htext := filledTo_text hb hstart string
  have hcolon : FilledTo _ (max n (min n 20 + string.length % 65536 + 2)) :=
    max_max_of_le (Nat.le_add_right _ 2) ▸ htext.fill (Nat.le_max_right _ _) [charOf ':', charOf ' ']
  simp only [logFormatStringNumber, StringNumberFits, number_ret, logPrependSizeMax_eq]
  rw [hc] at *
  generalize string.length % 65536 = len at *
  by_cases hroom : min n 20 + len + 2 ≤ 392
  · have hwrap : toUint16 (len + 2) = len + 2 := by
      rw [toUint16]
      omega
    have hnumber := filledTo_number hcolon number
      (show min n 20 + (len + 2) ≤ _ from Nat.le_max_right _ _)
    rw [max_max_of_le (by omega)] at hnumber
    have hret : toUint16 (n + toUint16 (numberLen number.toNat + (len + 2))) =
        n + len + 2 + numberLen number.toNat := by
      rw [toUint16, toUint16]
      omega
    rw [hwrap, hnumber.within_iff, hret, logBufferSize_eq]
    omega
  · have hlast := (hcolon (min n 20 + len + 1)).mpr (Nat.le_max_right _ _)
    refine iff_of_false (not_within_of_written (written_number hlast number _) ?_) ?_
    · rw [logBufferSize_eq]
      omega
    · rw [logBufferSize_eq]
      omega

theorem written_hexRounds (data : Memory) (offset k m : ℕ) (hk : k + 3*m < 65536) :
    (hexRounds data offset (b, k) m).2 = k + 3*m ∧
      ∀ i, (hexRounds data offset (b, k) m).1.Written i ↔
        (offset + k ≤ i ∧ i < offset + k + 3*m) ∨ b.Written i := by
  rw [hexRounds_eq _ _ _ _ _ hk]
  refine ⟨rfl, fun i => ?_⟩
  rw [written_fill, length_dump, length_firstBytes]

theorem written_of_hexRounds {i : ℕ} (h : b.Written i) (data : Memory) (offset k m : ℕ) :
    (hexRounds data offset (b, k) m).1.Written i := by
  induction m with
  | zero => exact h
  | succ m ih => exact ih.fill _ _

theorem filledTo_hexHeader (hb : b.FilledTo n) {p : ℕ} (hp : p ≤ n) (dataLen : ℕ) :
    (hexHeader b p dataLen).FilledTo (max n (p+8)) := by
  rw [hexHeader_eq, ← length_headerText dataLen]
  exact hb.fill hp _

theorem filledTo_hexRounds (hb : b.FilledTo n) (data : Memory) {offset k m : ℕ}
    (hp : offset + k ≤ n) (hk : k + 3*m < 65536) :
    (hexRounds data offset (b, k) m).1.FilledTo (max n (offset + k + 3*m)) := by
  intro i
  rw [(written_hexRounds data offset k m hk).2, hb i]
  omega

/-- Without a caption the header is skipped, yet its eight bytes count: either the
cell after the prefix or the last one handed over is not written. -/
theorem hexRounds_not_within (hb : b.FilledTo n) (hn : n ≤ 266) (data : Memory) {m : ℕ}
    (hm : m ≤ 100) :
    ¬ (hexRounds data (min n 20) (b, 8) m).1.Within logBufferSize
      (toUint16 (n + (hexRounds data (min n 20) (b, 8) m).2)) := by
  obtain ⟨hret, hwritten⟩ := written_hexRounds (b := b) data (min n 20) 8 m (by omega)
  have hlen : toUint16 (n + (8 + 3*m)) = n + 8 + 3*m := by
    rw [toUint16]
    omega
  rw [hret, hlen]
  by_cases hcut : n ≤ 20
  · have hgap : ¬ (hexRounds data (min n 20) (b, 8) m).1.Written n := by
      rw [hwritten, hb n]
      omega
    exact not_within_of_not_written hgap (by omega)
  · have hlast : ¬ (hexRounds data (min n 20) (b, 8) m).1.Written (n + 7 + 3*m) := by
      rw [hwritten, hb]
      omega
    exact not_within_of_not_written hlast (by omega)

theorem formatHexArray_within_iff (caption : CString) (data : Memory) (dataLen : UInt16)
    (hb : b.FilledTo n) (hn : n ≤ 266) :
    (logFormatHexArray caption data dataLen b n).1.Within logBufferSize
        (toUint16 (n + (logFormatHexArray caption data dataLen b n).2)) ↔
      HexArrayFits n caption dataLen := by
  have hnum : min logHexCountMax dataLen.toNat ≤ 100 := Nat.min_le_left _ _
  have hstart : min n 20 ≤ n := Nat.min_le_left _ _
  simp only [logFormatHexArray, HexArrayFits, logPrependSizeMax_eq]
  generalize min logHexCountMax dataLen.toNat = m at hnum
  have hc : toUint16 caption.length = caption.length % 65536 := rfl
  have htext := filledTo_text hb hstart caption
  by_cases hcaption : 0 < caption.length % 65536
  · rw [hc] at *
    rw [if_pos hcaption]
    have hheader := filledTo_hexHeader htext (Nat.le_max_right _ _) dataLen.toNat
    rw [max_max_of_le (by omega)] at hheader
    by_cases hroom : min n 20 + caption.length % 65536 + 8 ≤ 392
    · have hwrap : toUint16 (caption.length % 65536 + 8) = caption.length % 65536 + 8 := by
        rw [toUint16]
        omega
      have hdump := filledTo_hexRounds hheader data
        (show min n 20 + (caption.length % 65536 + 8) ≤ _ by omega)
        (show caption.length % 65536 + 8 + 3*m < 65536 by omega)
      rw [max_max_of_le (by omega)] at hdump
      rw [hwrap, hdump.within_iff, (written_hexRounds data _ _ m (by omega)).1, toUint16,
        logBufferSize_eq]
      omega
    · refine iff_of_false (not_within_of_written (written_of_hexRounds ((hheader _).mpr
        (show min n 20 + caption.length % 65536 + 7 < _ by omega)) data _ _ m) ?_) ?_
      · rw [logBufferSize_eq]
        omega
      · rw [logBufferSize_eq]
        omega
  · have hzero : toUint16 caption.length = 0 := by omega
    rw [hzero, if_neg (Nat.lt_irrefl 0)]
    exact iff_of_false (hexRounds_not_within hb hn data hnum) (by omega)

theorem appendEol_within_iff (len : ℕ) :
    (logFormatAppendEol b len).1.Within logBufferSize (logFormatAppendEol b len).2 ↔
      b.Within logBufferSize len := by
  unfold logFormatAppendEol
  split
  · rename_i hle
    rw [logContentSizeMax_eq] at hle
    have hroom : len + [charOf '\r', charOf '\n'].length ≤ logBufferSize := by
      rw [logBufferSize_eq, List.length_cons, List.length_singleton]
      omega
    exact within_append_iff hroom
  · rfl

theorem printLine_within_iff (s : LogState) (level : LogLevel) (eol : Bool)
    {body : Buffer UInt8 → ℕ → Buffer UInt8 × ℕ} {P : Prop}
    (hbody : ∀ b : Buffer UInt8, b.FilledTo (prefixLen s level) →
      ((body b (prefixLen s level)).1.Within logBufferSize
        (toUint16 (prefixLen s level + (body b (prefixLen s level)).2)) ↔ P)) :
    (printLine s level eol body).1.Within logBufferSize (printLine s level eol body).2 ↔ P := by
  obtain ⟨hfill, hlen⟩ := ready_prependStateInfo s level
  rw [← hbody _ hfill]
  simp only [printLine, hlen]
  cases eol with
  | true => exact appendEol_within_iff _
  | false => rfl

theorem onlyWritten_ite {c P : Prop} [Decidable c] {t : Buffer UInt8 × ℕ}
    (h : t.1.Within logBufferSize t.2 ↔ P) :
    OnlyWritten (if c then none else some t) ↔ c ∨ P := by
  by_cases hc : c
  · simp [OnlyWritten, hc]
  · simp [OnlyWritten, hc, h]

theorem only_written_iff (printf : Printf Args) (s : LogState) (level : LogLevel) (eol : Bool)
    (call : LogCall Args) :
    OnlyWritten (call.print printf s level eol) ↔
      call.Skipped s level ∨ call.Fits printf (prefixLen s level) := by
  have hle := prefixLen_le s level
  cases call with
  | format pFormat args =>
    cases pFormat with
    | none => simp [OnlyWritten, LogCall.print, logPrintFormat, LogCall.Skipped]
    | some format =>
      have hline := printLine_within_iff s level eol
        fun b hb => formatStringArgs_within_iff printf format args hb hle
      simpa [LogCall.print, logPrintFormat, LogCall.Skipped, LogCall.Fits] using
        onlyWritten_ite hline
  | stringNumber pString number =>
    cases pString with
    | none => simp [OnlyWritten, LogCall.print, logPrintStringNumber, LogCall.Skipped]
    | some string =>
      have hline := printLine_within_iff s level eol
        fun b hb => formatStringNumber_within_iff string number hb hle
      simpa [LogCall.print, logPrintStringNumber, LogCall.Skipped, LogCall.Fits] using
        onlyWritten_ite hline
  | hexArray caption pData dataLen =>
    cases pData with
    | none => simp [OnlyWritten, LogCall.print, logPrintHexArray, LogCall.Skipped]
    | some data =>
      have hline := printLine_within_iff s level eol
        fun b hb => formatHexArray_within_iff caption data dataLen hb hle
      simpa [LogCall.print, logPrintHexArray, LogCall.Skipped, LogCall.Fits] using
        onlyWritten_ite hline

def appState : LogState where
  cfg := ⟨false, true, false, .debug⟩
  logLevel := .info
  taskName := "app".toList.map charOf
  tickTime := 0

/-- A dump of no bytes without a caption hands over thirteen bytes: the prefix
`[app]` and eight bytes of the stack. -/
theorem empty_caption_leaks :
    ¬ OnlyWritten (logPrintHexArray appState .info false [] (some fun _ => 0) 0) := by
  intro h
  have hwithin := h _ rfl
  have hlen : (printLine appState .info false (logFormatHexArray [] (fun _ => 0) 0)).2 = 13 := by
    decide
  have hwritten := hwithin.2.2 5 (by rw [hlen]; decide)
  exact absurd hwritten (by unfold Written; decide)

end BleFirmware.LogWritten
