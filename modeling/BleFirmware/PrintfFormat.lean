import BleFirmware.Base.Loop
import BleFirmware.PrintfInteger

/-!
# The format loop of `printf.c`

A turn of the loop prints a plain character or reads a directive: flags, width,
precision, length and the specifier, in this order. The sizes are those of the
microcontroller, where `int`, `long` and pointers have 32 bits. The text of a
floating point number is a parameter. What `%n` stores through the pointers of the
caller is kept apart from the buffer, which they are taken not to point into.
-/

namespace BleFirmware

/-- An argument by the type with which it is passed; of an integer, its bits. -/
inductive VaArg (F : Type)
  | int (value : UInt32)
  | long (value : UInt32)
  | longLong (value : UInt64)
  | double (value : F)
  | longDouble (value : F)
  | string (p : Option CString)
  | pointer (p : UInt32)

namespace VaArg

variable {F : Type}

def int? : VaArg F → Option UInt32
  | int value => some value
  | _ => none

def long? : VaArg F → Option UInt32
  | long value => some value
  | _ => none

def longLong? : VaArg F → Option UInt64
  | longLong value => some value
  | _ => none

def double? : VaArg F → Option F
  | double value => some value
  | _ => none

def longDouble? : VaArg F → Option F
  | longDouble value => some value
  | _ => none

def string? : VaArg F → Option (Option CString)
  | string p => some p
  | _ => none

def pointer? : VaArg F → Option UInt32
  | pointer p => some p
  | _ => none

end VaArg

/-- What the C standard leaves undefined: to take an argument that is not there or has
another type, and to read behind the terminator of the format. -/
inductive PrintfFault
  | argument
  | pastEnd
  deriving DecidableEq

inductive Stop
  | returns
  | fault (f : PrintfFault)
  deriving DecidableEq

/-- What `print_floating_point` prints for a value, a precision, a width, the flags and
`prefer_exponential`. -/
abbrev FloatingPoint (F : Type) := F → UInt32 → UInt32 → PrintfFlags → Bool → CString

inductive CountType
  | char
  | short
  | int
  | long
  | longLong
  deriving DecidableEq

def CountType.bits : CountType → ℕ
  | char => 8
  | short => 16
  | int => 32
  | long => 32
  | longLong => 64

structure WriteBack where
  type : CountType
  address : UInt32
  value : ℕ
  deriving DecidableEq

structure Specifier (F : Type) where
  flags : PrintfFlags
  width : UInt32
  precision : UInt32
  format : CString
  args : List (VaArg F)

/-- The variables of `format_string_loop` between two turns, and the stores of `%n`. -/
structure PrintfState (F : Type) where
  output : OutputGadget
  stored : List WriteBack
  format : CString
  args : List (VaArg F)

section
variable {F : Type}

def vaArg {α : Type} (get : VaArg F → Option α) :
    List (VaArg F) → Except PrintfFault (α × List (VaArg F))
  | [] => .error .argument
  | a :: args =>
    match get a with
    | some value => .ok (value, args)
    | none => .error .argument

def deref (format : CString) : UInt8 := format.headD 0

/-- `ADVANCE_IN_FORMAT_STRING`. -/
def advance : CString → Except Stop CString
  | _ :: c :: format => .ok (c :: format)
  | _ => .error .returns

def isDigit (c : UInt8) : Bool := charOf '0' ≤ c && c ≤ charOf '9'

def atou (i : UInt32) : CString → UInt32 × CString
  | [] => (i, [])
  | c :: str =>
    if isDigit c then atou (i * 10 + (c - charOf '0').toUInt32) str else (i, c :: str)

def parseFlags (flags : PrintfFlags) : CString → PrintfFlags × CString
  | [] => (flags, [])
  | c :: format =>
    if c = charOf '0' then parseFlags { flags with zeropad := true } format
    else if c = charOf '-' then parseFlags { flags with left := true } format
    else if c = charOf '+' then parseFlags { flags with plus := true } format
    else if c = charOf ' ' then parseFlags { flags with space := true } format
    else if c = charOf '#' then parseFlags { flags with hash := true } format
    else (flags, c :: format)

def evalWidth (s : Specifier F) : Except Stop (Specifier F) :=
  if isDigit (deref s.format) then
    let r := atou 0 s.format
    .ok { s with width := r.1, format := r.2 }
  else if deref s.format = charOf '*' then do
    let (w, args) ← (vaArg VaArg.int? s.args).mapError Stop.fault
    let format ← advance s.format
    if w.toInt32 < 0 then
      .ok { s with flags := { s.flags with left := true }, width := -w, format, args }
    else .ok { s with width := w, format, args }
  else .ok s

/-- The `do` loop over the digits of a negative precision. -/
def skipNegative : CString → Except Stop CString
  | _ :: c :: format => if isDigit c then skipNegative (c :: format) else .ok (c :: format)
  | _ => .error .returns

def evalPrecision (s : Specifier F) : Except Stop (Specifier F) :=
  if deref s.format = charOf '.' then do
    let flags := { s.flags with precision := true }
    let format ← advance s.format
    if deref format = charOf '-' then do
      let format ← skipNegative format
      .ok { s with flags := { flags with precision := false }, format }
    else if isDigit (deref format) then
      let r := atou 0 format
      .ok { s with flags, precision := r.1, format := r.2 }
    else if deref format = charOf '*' then do
      let (p, args) ← (vaArg VaArg.int? s.args).mapError Stop.fault
      let format ← advance format
      if p.toInt32 < 0 then
        .ok { s with flags := { flags with precision := false }, format, args }
      else .ok { s with flags, precision := p, format, args }
    else .ok { s with flags, format }
  else .ok s

def evalLength (s : Specifier F) : Except Stop (Specifier F) :=
  if deref s.format = charOf 'l' then do
    let flags := { s.flags with long := true }
    let format ← advance s.format
    if deref format = charOf 'l' then do
      let format ← advance format
      .ok { s with flags := { flags with longLong := true }, format }
    else .ok { s with flags, format }
  else if deref s.format = charOf 'L' then do
    let format ← advance s.format
    .ok { s with flags := { s.flags with longDouble := true }, format }
  else if deref s.format = charOf 'h' then do
    let flags := { s.flags with short := true }
    let format ← advance s.format
    if deref format = charOf 'h' then do
      let format ← advance format
      .ok { s with flags := { flags with char := true }, format }
    else .ok { s with flags, format }
  else if deref s.format = charOf 't' then do
    let format ← advance s.format
    .ok { s with flags := { s.flags with int := true }, format }
  else if deref s.format = charOf 'j' then do
    let format ← advance s.format
    .ok { s with flags := { s.flags with longLong := true }, format }
  else if deref s.format = charOf 'z' then do
    let format ← advance s.format
    .ok { s with flags := { s.flags with int := true }, format }
  else .ok s

/-- Up to the specifier; the format stands at the percent sign. -/
def evalFields (format : CString) (args : List (VaArg F)) : Except Stop (Specifier F) := do
  let format ← advance format
  let r := parseFlags {} format
  let s ← evalWidth ⟨r.1, 0, 0, r.2, args⟩
  let s ← evalPrecision s
  evalLength s

def numericBase (c : UInt8) : ℕ :=
  if c = charOf 'x' ∨ c = charOf 'X' then 16
  else if c = charOf 'o' then 8
  else if c = charOf 'b' then 2
  else 10

def integerFlags (c : UInt8) (flags : PrintfFlags) : PrintfFlags :=
  let flags := if c = charOf 'd' ∨ c = charOf 'i' then { flags with signed := true } else flags
  let flags := if numericBase c = 10 then { flags with hash := false } else flags
  let flags := if c = charOf 'X' then { flags with uppercase := true } else flags
  if flags.precision then { flags with zeropad := false } else flags

def absForPrinting (x : ℤ) : UInt64 := x.natAbs.toUInt64

def signedArgument (flags : PrintfFlags) (args : List (VaArg F)) :
    Except PrintfFault (ℤ × List (VaArg F)) :=
  if flags.longLong then do
    let (value, args) ← vaArg VaArg.longLong? args
    .ok (value.toInt64.toInt, args)
  else if flags.long then do
    let (value, args) ← vaArg VaArg.long? args
    .ok (value.toInt32.toInt, args)
  else do
    let (value, args) ← vaArg VaArg.int? args
    if flags.char then .ok (value.toUInt8.toInt8.toInt, args)
    else if flags.short then .ok (value.toUInt16.toInt16.toInt, args)
    else .ok (value.toInt32.toInt, args)

def unsignedArgument (flags : PrintfFlags) (args : List (VaArg F)) :
    Except PrintfFault (UInt64 × List (VaArg F)) :=
  if flags.longLong then vaArg VaArg.longLong? args
  else if flags.long then do
    let (value, args) ← vaArg VaArg.long? args
    .ok (value.toUInt64, args)
  else do
    let (value, args) ← vaArg VaArg.int? args
    if flags.char then .ok (value.toUInt8.toUInt64, args)
    else if flags.short then .ok (value.toUInt16.toUInt64, args)
    else .ok (value.toUInt64, args)

def evalInteger (c : UInt8) (g : OutputGadget) (s : Specifier F) :
    Except PrintfFault (OutputGadget × List (VaArg F)) :=
  let base := numericBase c
  let flags := integerFlags c s.flags
  if flags.signed then do
    let (value, args) ← signedArgument flags s.args
    .ok (printInteger g (absForPrinting value) (value < 0) base s.precision s.width flags, args)
  else do
    let flags := { flags with plus := false, space := false }
    let (value, args) ← unsignedArgument flags s.args
    .ok (printInteger g value false base s.precision s.width flags, args)

def evalFloat (fp : FloatingPoint F) (c : UInt8) (g : OutputGadget) (s : Specifier F) :
    Except PrintfFault (OutputGadget × List (VaArg F)) := do
  let (value, args) ← vaArg (if s.flags.longDouble then VaArg.longDouble? else VaArg.double?) s.args
  if c = charOf 'f' ∨ c = charOf 'F' then
    let flags := if c = charOf 'F' then { s.flags with uppercase := true } else s.flags
    .ok (g.puts (fp value s.precision s.width flags false), args)
  else
    let flags := if c = charOf 'g' ∨ c = charOf 'G' then { s.flags with adaptExp := true } else s.flags
    let flags := if c = charOf 'E' ∨ c = charOf 'G' then { flags with uppercase := true } else flags
    .ok (g.puts (fp value s.precision s.width flags true), args)

def printCharacter (g : OutputGadget) (c : UInt8) (width : UInt32) (flags : PrintfFlags) :
    OutputGadget :=
  let g := if !flags.left then putSpaces g (width.toNat - 1) else g
  let g := putcharViaGadget g c
  if flags.left then putSpaces g (width.toNat - 1) else g

def strnlenS : CString → UInt32 → UInt32
  | [], _ => 0
  | _ :: str, maxsize => if maxsize = 0 then 0 else strnlenS str (maxsize - 1) + 1

/-- The output of a string, up to the precision where there is one. -/
def putString (flags : PrintfFlags) : CString → UInt32 → OutputGadget → OutputGadget
  | [], _, g => g
  | c :: p, precision, g =>
    if !flags.precision || precision != 0 then
      putString flags p (precision - 1) (putcharViaGadget g c)
    else g

def printString (g : OutputGadget) (p : Option CString) (precision width : UInt32)
    (flags : PrintfFlags) : OutputGadget :=
  match p with
  | none => outRev g (")llun(".toList.map charOf) width flags
  | some p =>
    let l := strnlenS p (if precision != 0 then precision else printfMaxPossibleBufferSize)
    let l := if flags.precision then if l < precision then l else precision else l
    let g := if !flags.left then putSpaces g (width.toNat - l.toNat) else g
    let g := putString flags p precision g
    if flags.left then putSpaces g (width.toNat - l.toNat) else g

/-- The size of a pointer is 4. -/
def printPointer (g : OutputGadget) (value precision : UInt32) (flags : PrintfFlags) :
    OutputGadget :=
  let width : UInt32 := 4 * 2 + 2
  let flags := { flags with zeropad := true, pointer := true }
  if value = 0 then outRev g (")lin(".toList.map charOf) width flags
  else printInteger g value.toUInt64 false 16 precision width flags

def countType (flags : PrintfFlags) : CountType :=
  if flags.char then .char
  else if flags.short then .short
  else if flags.long then .long
  else if flags.longLong then .longLong
  else .int

def writeBack (pos : UInt32) (flags : PrintfFlags) (address : UInt32) : WriteBack :=
  ⟨countType flags, address, pos.toNat % 2 ^ (countType flags).bits⟩

def integerSpecifiers : List UInt8 := "diuxXob".toList.map charOf

def floatSpecifiers : List UInt8 := "fFeEgG".toList.map charOf

def evalSpecifier (fp : FloatingPoint F) (g : OutputGadget) (stored : List WriteBack)
    (s : Specifier F) : Except PrintfFault (PrintfState F) :=
  match s.format with
  -- the terminator is printed by `default`, and the loop goes on behind it
  | [] => .error .pastEnd
  | c :: format =>
    if c ∈ integerSpecifiers then do
      let (g, args) ← evalInteger c g s
      .ok ⟨g, stored, format, args⟩
    else if c ∈ floatSpecifiers then do
      let (g, args) ← evalFloat fp c g s
      .ok ⟨g, stored, format, args⟩
    else if c = charOf 'c' then do
      let (value, args) ← vaArg VaArg.int? s.args
      .ok ⟨printCharacter g value.toUInt8 s.width s.flags, stored, format, args⟩
    else if c = charOf 's' then do
      let (p, args) ← vaArg VaArg.string? s.args
      .ok ⟨printString g p s.precision s.width s.flags, stored, format, args⟩
    else if c = charOf 'p' then do
      let (value, args) ← vaArg VaArg.pointer? s.args
      .ok ⟨printPointer g value s.precision s.flags, stored, format, args⟩
    else if c = charOf 'n' then do
      let (address, args) ← vaArg VaArg.pointer? s.args
      -- a write to wherever the caller's pointer points
      .ok ⟨g, stored ++ [writeBack g.pos s.flags address], format, args⟩
    else .ok ⟨putcharViaGadget g c, stored, format, s.args⟩

def evalDirective (fp : FloatingPoint F) (s : PrintfState F) : Except Stop (PrintfState F) := do
  let d ← evalFields s.format s.args
  (evalSpecifier fp s.output s.stored d).mapError Stop.fault

def formatStringTurn (fp : FloatingPoint F) (s : PrintfState F) :
    PrintfState F ⊕ Except PrintfFault (PrintfState F) :=
  match s.format with
  | [] => .inr (.ok s)
  | c :: format =>
    if c ≠ charOf '%' then .inl { s with output := putcharViaGadget s.output c, format }
    else
      match evalDirective fp s with
      | .ok t => .inl t
      | .error .returns => .inr (.ok s)
      | .error (.fault f) => .inr (.error f)

/-- A turn shortens the format, which bounds the rounds. -/
def formatStringLoop (fp : FloatingPoint F) (s : PrintfState F) :
    Option (Except PrintfFault (PrintfState F)) :=
  Loop.run (formatStringTurn fp) (s.format.length + 1) s

structure PrintfResult where
  output : OutputGadget
  stored : List WriteBack
  result : Int32

def vsnprintfImpl (fp : FloatingPoint F) (g : OutputGadget) (format : CString)
    (args : List (VaArg F)) : Option (Except PrintfFault PrintfResult) :=
  (formatStringLoop fp ⟨g, [], format, args⟩).map fun r => r.map fun s =>
    ⟨appendTerminationWithGadget s.output, s.stored, s.output.pos.toInt32⟩

def vsnprintf (fp : FloatingPoint F) (cells : Buffer UInt8) (s : Option ℕ) (n : UInt32)
    (format : CString) (args : List (VaArg F)) : Option (Except PrintfFault PrintfResult) :=
  vsnprintfImpl fp (bufferGadget cells s n) format args

def vsprintf (fp : FloatingPoint F) (cells : Buffer UInt8) (s : Option ℕ) (format : CString)
    (args : List (VaArg F)) : Option (Except PrintfFault PrintfResult) :=
  vsnprintf fp cells s printfMaxPossibleBufferSize format args

/-- With a function that is not `NULL`. -/
def vfctprintf (fp : FloatingPoint F) (cells : Buffer UInt8) (format : CString)
    (args : List (VaArg F)) : Option (Except PrintfFault PrintfResult) :=
  vsnprintfImpl fp (functionGadget cells) format args

end

end BleFirmware
