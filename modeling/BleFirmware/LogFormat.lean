import BleFirmware.Base.Buffer
import BleFirmware.Base.Bytes

/-!
# `log_format.c`

The functions fill the local buffer of `log.c` and return a length. Lengths and
offsets are `uint16_t`, so a sum that can reach 2^16 wraps where it is stored;
the index of a buffer cell is an `int` and does not. A string is the list of the
bytes before its terminator, and `strlen` is cut to the type it is stored in.
-/

namespace BleFirmware
open Bytes

def logBufSizeOffset : ℕ := 40

def logCaptionSizeMax : ℕ := 20

def logHexCountMax : ℕ := 100

def logPrependSizeMax : ℕ := 20

def logBuffSizeMax : ℕ := logHexCountMax * 3 + logCaptionSizeMax + 12 + logPrependSizeMax

def logContentSizeMax : ℕ := logBuffSizeMax - logPrependSizeMax - 2

theorem logPrependSizeMax_eq : logPrependSizeMax = 20 := rfl

theorem logContentSizeMax_eq : logContentSizeMax = 330 := rfl

def logLevelSymbolSize : ℕ := 2

inductive LogLevel
  | trace
  | debug
  | info
  | warn
  | error
  | fatal
  | none
  deriving DecidableEq

def LogLevel.toNat : LogLevel → ℕ
  | .trace => 0
  | .debug => 1
  | .info => 2
  | .warn => 3
  | .error => 4
  | .fatal => 5
  | .none => 6

abbrev CString := List UInt8

def toUint16 (n : ℕ) : ℕ := n % 65536

def charOf (c : Char) : UInt8 := c.toNat.toUInt8

def hexCharTable : List UInt8 := "0123456789ABCDEF".toList.map charOf

def hexChar (i : ℕ) : UInt8 := hexCharTable.getD i 0

/-- `HEX_CHAR_TABLE[(x >> shift) & 0x0F]`. -/
def hexDigit (x shift : ℕ) : UInt8 := hexChar (x >>> shift &&& 0x0F)

def levelSymbol : LogLevel → UInt8
  | .trace => charOf '>'
  | .debug => charOf '.'
  | .info => charOf '-'
  | .warn => charOf '~'
  | .error => charOf '='
  | .fatal => charOf '*'
  | .none => charOf ' '

/-- The formatter of the printf package: the whole text of a format with its
arguments. A format without a conversion is its own text. -/
structure Printf (Args : Type) where
  text : CString → Args → CString
  text_plain : ∀ format args, charOf '%' ∉ format → text format args = format

/-- `vsnprintf_` for a positive `n`: at most `n` bytes with the terminator are
written, and the length of the whole text is returned. -/
def Printf.vsnprintf {Args : Type} (printf : Printf Args) (b : Buffer UInt8) (p n : ℕ)
    (format : CString) (args : Args) : Buffer UInt8 × ℕ :=
  let text := printf.text format args
  (b.fill p (text.take (n-1) ++ [0]), text.length)

def logFormatStringArgs {Args : Type} (printf : Printf Args) (format : CString) (args : Args)
    (b : Buffer UInt8) (offset : ℕ) : Buffer UInt8 × ℕ :=
  let offset := min offset logPrependSizeMax
  if charOf '%' ∈ format then
    let r := printf.vsnprintf b offset logContentSizeMax format args
    (r.1, toUint16 r.2)
  else
    let bufferLen := toUint16 format.length
    (b.fill offset (format.take bufferLen), bufferLen)

/-- The digits of the number after `0x`, by the least of its four widths. -/
def numberDigits (number : ℕ) : List UInt8 :=
  if number = 0 then [charOf '0']
  else if number ≤ 0xFF then [hexChar (number >>> 4), hexDigit number 0]
  else if number ≤ 0xFFFF then
    [hexDigit number 12, hexDigit number 8, hexDigit number 4, hexDigit number 0]
  else
    [hexDigit number 28, hexDigit number 24, hexDigit number 20, hexDigit number 16,
      hexDigit number 12, hexDigit number 8, hexDigit number 4, hexDigit number 0]

def logFormatNumber (number : UInt32) (b : Buffer UInt8) (p : ℕ) : Buffer UInt8 × ℕ :=
  let b := b.fill p [charOf '0', charOf 'x']
  let digits := numberDigits number.toNat
  (b.fill (p+2) digits, 2 + digits.length)

def logFormatStringNumber (string : Option CString) (number : UInt32) (b : Buffer UInt8)
    (offset : ℕ) : Buffer UInt8 × ℕ :=
  let offset := min offset logPrependSizeMax
  let (b, stringLen) :=
    match string with
    | some s =>
      let stringLen := toUint16 s.length
      let b := b.fill offset (s.take stringLen)
      let b := b.fill (offset + stringLen) [charOf ':', charOf ' ']
      (b, toUint16 (stringLen + 2))
    | none => (b, 0)
  let r := logFormatNumber number b (offset + stringLen)
  (r.1, toUint16 (r.2 + stringLen))

/-- The text `[FFFh]: ` and, for a length that has three digits, the digits. -/
def hexHeader (b : Buffer UInt8) (p : ℕ) (dataLen : ℕ) : Buffer UInt8 :=
  let b := b.fill p ("[FFFh]: ".toList.map charOf)
  if dataLen ≤ 0x0FFF then
    let hiByte := dataLen >>> 8 % 256
    let loByte := dataLen % 256
    b.fill (p+1) [hexDigit hiByte 0, hexChar ((loByte &&& 0xF0) >>> 4), hexDigit loByte 0]
  else b

/-- One round of the loop of `log_format_hex_array`, on the buffer and
`byte_index`. -/
def hexRound (data : Memory) (offset : ℕ) (s : Buffer UInt8 × ℕ) (i : ℕ) : Buffer UInt8 × ℕ :=
  let byte := (data i).toNat
  (s.1.fill (offset + s.2) [hexChar (byte >>> 4), hexDigit byte 0, charOf ' '],
    toUint16 (s.2 + 3))

def hexRounds (data : Memory) (offset : ℕ) (s : Buffer UInt8 × ℕ) : ℕ → Buffer UInt8 × ℕ
  | 0 => s
  | i+1 => hexRound data offset (hexRounds data offset s i) i

def logFormatHexArray (caption : CString) (data : Memory) (dataLen : UInt16) (b : Buffer UInt8)
    (offset : ℕ) : Buffer UInt8 × ℕ :=
  let offset := min offset logPrependSizeMax
  let captionLen := toUint16 caption.length
  let b :=
    if captionLen > 0 then
      hexHeader (b.fill offset (caption.take captionLen)) (offset + captionLen) dataLen.toNat
    else b
  let byteIndex := toUint16 (captionLen + 8)
  let hexNum := min logHexCountMax dataLen.toNat
  hexRounds data offset (b, byteIndex) hexNum

def logFormatAppendEol (b : Buffer UInt8) (bufferLen : ℕ) : Buffer UInt8 × ℕ :=
  if bufferLen ≤ logContentSizeMax then
    (b.fill bufferLen [charOf '\r', charOf '\n'], bufferLen + 2)
  else (b, bufferLen)

def logFormatPrependTickTime (timestamp : UInt32) (b : Buffer UInt8) (offset : ℕ) :
    Buffer UInt8 × ℕ :=
  let t := timestamp.toNat
  (b.fill offset [charOf '[', hexDigit t 16, hexDigit t 12, hexDigit t 8, hexDigit t 4,
    hexDigit t 0, charOf ']'], 7)

/-- The length of the name is a `uint8_t`. -/
def logFormatPrependTaskName (name : CString) (b : Buffer UInt8) (offset : ℕ) :
    Buffer UInt8 × ℕ :=
  let nameLen := name.length % 256
  let b := b.fill offset [charOf '[']
  let shown := if nameLen > 0 then name.take nameLen else [charOf '@']
  let b := b.fill (offset+1) shown
  let byteIndex := 1 + shown.length
  (b.fill (offset + byteIndex) [charOf ']'], byteIndex + 1)

def logFormatPrependLevelSymbol (level : LogLevel) (b : Buffer UInt8) (offset : ℕ) :
    Buffer UInt8 × ℕ :=
  (b.fill offset (List.replicate logLevelSymbolSize (levelSymbol level)), logLevelSymbolSize)

end BleFirmware
