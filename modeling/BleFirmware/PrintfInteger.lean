import BleFirmware.PrintfGadget
import Mathlib.Data.Nat.Digits.Defs
import Mathlib.Tactic.SplitIfs

/-!
# The integers of `printf.c`

A number is written into a buffer of 32 characters, its lowest digit first, then the
zeros, the prefix and the sign in front of it, and the buffer is printed backwards.
Each store is guarded by the size of the buffer, so what does not fit is left out.
-/

namespace BleFirmware

def printfIntegerBufferSize : ℕ := 32

structure PrintfFlags where
  zeropad : Bool := false
  left : Bool := false
  plus : Bool := false
  space : Bool := false
  hash : Bool := false
  uppercase : Bool := false
  char : Bool := false
  short : Bool := false
  int : Bool := false
  long : Bool := false
  longLong : Bool := false
  precision : Bool := false
  adaptExp : Bool := false
  pointer : Bool := false
  signed : Bool := false
  longDouble : Bool := false
  deriving DecidableEq

/-- The first `len` cells of `buf`. -/
structure IntegerBuffer where
  chars : CString
  length_le : chars.length ≤ printfIntegerBufferSize

namespace IntegerBuffer

def empty : IntegerBuffer := ⟨[], Nat.zero_le _⟩

def len (buf : IntegerBuffer) : ℕ := buf.chars.length

def push (buf : IntegerBuffer) (c : UInt8) : IntegerBuffer :=
  if h : buf.len < printfIntegerBufferSize then
    ⟨buf.chars ++ [c], by rw [List.length_append]; exact h⟩
  else buf

def pop (buf : IntegerBuffer) : IntegerBuffer :=
  ⟨buf.chars.dropLast, by rw [List.length_dropLast]; exact (Nat.sub_le _ _).trans buf.length_le⟩

end IntegerBuffer

/-- The characters that a loop which only counts prints. -/
def putSpaces (g : OutputGadget) (n : ℕ) : OutputGadget :=
  Nat.repeat (putcharViaGadget · (charOf ' ')) n g

/-- The pad behind a field; it takes at most `width` rounds. -/
def padRight (startPos width : UInt32) : ℕ → OutputGadget → OutputGadget
  | 0, g => g
  | n+1, g =>
    if g.pos - startPos < width then padRight startPos width n (putcharViaGadget g (charOf ' '))
    else g

def outRev (g : OutputGadget) (buf : CString) (width : UInt32) (flags : PrintfFlags) :
    OutputGadget :=
  let startPos := g.pos
  let g := if !flags.left && !flags.zeropad then putSpaces g (width.toNat - buf.length) else g
  let g := buf.foldr (fun c g => putcharViaGadget g c) g
  if flags.left then padRight startPos width width.toNat g else g

/-- Zeros up to a length; the buffer bounds the rounds. -/
def padZeros (limit : UInt32) : ℕ → IntegerBuffer → IntegerBuffer
  | 0, buf => buf
  | n+1, buf =>
    if buf.len < limit.toNat ∧ buf.len < printfIntegerBufferSize then
      padZeros limit n (buf.push (charOf '0'))
    else buf

/-- The width without the sign that will stand in front of the zeros. -/
def zerosWidth (negative : Bool) (width : UInt32) (flags : PrintfFlags) : UInt32 :=
  if !flags.left && width != 0 && flags.zeropad && (negative || flags.plus || flags.space) then
    width - 1
  else width

def putZeros (buf : IntegerBuffer) (precision width : UInt32) (flags : PrintfFlags) :
    IntegerBuffer :=
  let buf :=
    if !flags.left && flags.zeropad then padZeros width printfIntegerBufferSize buf else buf
  padZeros precision printfIntegerBufferSize buf

/-- Padding digits make room for the prefix that follows. -/
def takeBack (buf : IntegerBuffer) (unpaddedLen base : ℕ) : IntegerBuffer :=
  let buf := if unpaddedLen < buf.len then buf.pop else buf
  if buf.len != 0 && (base == 16 || base == 2) && unpaddedLen < buf.len then buf.pop else buf

def putPrefix (buf : IntegerBuffer) (base : ℕ) (flags : PrintfFlags) : IntegerBuffer :=
  let buf :=
    if base == 16 && !flags.uppercase then buf.push (charOf 'x')
    else if base == 16 && flags.uppercase then buf.push (charOf 'X')
    else if base == 2 then buf.push (charOf 'b')
    else buf
  buf.push (charOf '0')

def putAlternative (buf : IntegerBuffer) (unpaddedLen base : ℕ) (precision width : UInt32)
    (flags : PrintfFlags) : IntegerBuffer :=
  -- the zeros are already the alternative form of an octal number
  let hash := flags.hash && !(base == 8 && buf.len > unpaddedLen)
  if hash || flags.pointer then
    let buf :=
      if !flags.precision && buf.len != 0 &&
          (buf.len == precision.toNat || buf.len == width.toNat) then
        takeBack buf unpaddedLen base
      else buf
    putPrefix buf base flags
  else buf

def putSign (buf : IntegerBuffer) (negative : Bool) (flags : PrintfFlags) : IntegerBuffer :=
  if negative then buf.push (charOf '-')
  else if flags.plus then buf.push (charOf '+')
  else if flags.space then buf.push (charOf ' ')
  else buf

def finishInteger (buf : IntegerBuffer) (negative : Bool) (base : ℕ) (precision width : UInt32)
    (flags : PrintfFlags) : IntegerBuffer :=
  putSign (putAlternative (putZeros buf precision width flags) buf.len base precision width flags)
    negative flags

def printIntegerFinalization (g : OutputGadget) (buf : IntegerBuffer) (negative : Bool) (base : ℕ)
    (precision width : UInt32) (flags : PrintfFlags) : OutputGadget :=
  let width := zerosWidth negative width flags
  outRev g (finishInteger buf negative base precision width flags).chars width flags

def digitChar (uppercase : Bool) (digit : ℕ) : UInt8 :=
  if digit < 10 then charOf '0' + digit.toUInt8
  else (if uppercase then charOf 'A' else charOf 'a') + digit.toUInt8 - 10

def putDigits (base : ℕ) (uppercase : Bool) : ℕ → ℕ → IntegerBuffer → IntegerBuffer
  | 0, _, buf => buf
  | n+1, value, buf =>
    let buf := buf.push (digitChar uppercase (value % base))
    if value / base ≠ 0 ∧ buf.len < printfIntegerBufferSize then
      putDigits base uppercase n (value / base) buf
    else buf

/-- The digits with which `print_integer` begins; the flag goes with a zero, whose two forms
are the same. -/
def startInteger (value : UInt64) (base : ℕ) (flags : PrintfFlags) : IntegerBuffer × PrintfFlags :=
  if value = 0 then
    if !flags.precision then (IntegerBuffer.empty.push (charOf '0'), { flags with hash := false })
    else if base = 16 then (.empty, { flags with hash := false })
    else (.empty, flags)
  else (putDigits base flags.uppercase printfIntegerBufferSize value.toNat .empty, flags)

def printInteger (g : OutputGadget) (value : UInt64) (negative : Bool) (base : ℕ)
    (precision width : UInt32) (flags : PrintfFlags) : OutputGadget :=
  let r := startInteger value base flags
  printIntegerFinalization g r.1 negative base precision width r.2

namespace PrintfInteger
open OutputGadget

def fieldText (chars : CString) (width : ℕ) (flags : PrintfFlags) : CString :=
  let pad := List.replicate (width - chars.length) (charOf ' ')
  (if !flags.left && !flags.zeropad then pad else []) ++ chars ++ if flags.left then pad else []

variable {g : OutputGadget}

theorem putSpaces_eq (g : OutputGadget) (n : ℕ) :
    putSpaces g n = g.puts (List.replicate n (charOf ' ')) := by
  induction n with
  | zero => rfl
  | succ n ih =>
    rw [List.replicate_succ', puts_concat, ← ih]
    rfl

theorem foldr_putchar (g : OutputGadget) (buf : CString) :
    buf.foldr (fun c g => putcharViaGadget g c) g = g.puts buf.reverse := by
  rw [puts, List.foldl_reverse]

theorem padRight_eq {startPos width : UInt32} {n k : ℕ}
    (hpos : (g.pos - startPos).toNat = k) (hn : width.toNat - k ≤ n) :
    padRight startPos width n g = g.puts (List.replicate (width.toNat - k) (charOf ' ')) := by
  induction n generalizing g k with
  | zero =>
    have hzero : width.toNat - k = 0 := Nat.le_zero.mp hn
    rw [hzero]
    rfl
  | succ n ih =>
    rw [padRight]
    by_cases hlt : g.pos - startPos < width
    · have hlt' : k < width.toNat := hpos ▸ UInt32.lt_iff_toNat_lt.mp hlt
      have hnext : ((putcharViaGadget g (charOf ' ')).pos - startPos).toNat = k+1 := by
        have hsum : g.pos + 1 - startPos = g.pos - startPos + 1 := by
          rw [UInt32.sub_eq_add_neg, UInt32.sub_eq_add_neg, UInt32.add_assoc, UInt32.add_assoc,
            UInt32.add_comm 1]
        rw [putchar_pos, hsum, UInt32.toNat_add, hpos]
        have hwidth := width.toNat_lt
        change (k + 1) % 2^32 = k+1
        omega
      have hsplit : width.toNat - k = width.toNat - (k+1) + 1 := by omega
      rw [if_pos hlt, ih hnext (by omega), hsplit, List.replicate_succ, puts_cons]
    · have hge : width.toNat ≤ k := hpos ▸ Nat.le_of_not_lt (mt UInt32.lt_iff_toNat_lt.mpr hlt)
      rw [if_neg hlt, Nat.sub_eq_zero_of_le hge]
      rfl

theorem outRev_eq {buf : CString} (hbuf : buf.length < 2^32) (g : OutputGadget) (width : UInt32)
    (flags : PrintfFlags) :
    outRev g buf width flags = g.puts (fieldText buf.reverse width.toNat flags) := by
  simp only [outRev, foldr_putchar, putSpaces_eq, fieldText, List.length_reverse]
  cases hl : flags.left with
  | false =>
    cases flags.zeropad with
    | false => simp [puts_append]
    | true => simp
  | true =>
    have hpos : ((g.puts buf.reverse).pos - g.pos).toNat = buf.length := by
      rw [puts_pos, List.length_reverse, UInt32.add_comm, UInt32.add_sub_cancel,
        UInt32.toNat_ofNat_of_lt' hbuf]
    simp [padRight_eq hpos (Nat.sub_le _ _), puts_append]

theorem push_chars {buf : IntegerBuffer} (h : buf.chars.length < printfIntegerBufferSize)
    (c : UInt8) : (buf.push c).chars = buf.chars ++ [c] := by
  have hlen : buf.len < printfIntegerBufferSize := h
  rw [IntegerBuffer.push, dif_pos hlen]

theorem padZeros_chars (limit : UInt32) {n : ℕ} (buf : IntegerBuffer)
    (hn : printfIntegerBufferSize - buf.chars.length ≤ n) :
    (padZeros limit n buf).chars = buf.chars ++
      List.replicate (min limit.toNat printfIntegerBufferSize - buf.chars.length) (charOf '0') := by
  induction n generalizing buf with
  | zero =>
    have hzero : min limit.toNat printfIntegerBufferSize - buf.chars.length = 0 := by omega
    rw [hzero, List.replicate_zero, List.append_nil, padZeros]
  | succ n ih =>
    rw [padZeros]
    by_cases hlt : buf.len < limit.toNat ∧ buf.len < printfIntegerBufferSize
    · have hroom : buf.chars.length < printfIntegerBufferSize := hlt.2
      have hlimit : buf.chars.length < limit.toNat := hlt.1
      have hpush := push_chars hroom (charOf '0')
      have hlen : (buf.push (charOf '0')).chars.length = buf.chars.length + 1 := by
        rw [hpush, List.length_append, List.length_singleton]
      have hsplit : min limit.toNat printfIntegerBufferSize - buf.chars.length =
          min limit.toNat printfIntegerBufferSize - (buf.chars.length + 1) + 1 := by omega
      rw [if_pos hlt, ih _ (by omega), hlen, hpush, hsplit, List.replicate_succ, List.append_assoc,
        List.singleton_append]
    · have hfull : min limit.toNat printfIntegerBufferSize - buf.chars.length = 0 := by
        have hlen : buf.len = buf.chars.length := rfl
        omega
      rw [if_neg hlt, hfull, List.replicate_zero, List.append_nil]

def digitChars (base : ℕ) (uppercase : Bool) (value : ℕ) : CString :=
  (Nat.digits base value).map (digitChar uppercase)

theorem putDigits_chars {base : ℕ} (hbase : 1 < base) (uppercase : Bool) {n value : ℕ}
    (hvalue : value ≠ 0) (buf : IntegerBuffer) (hn : printfIntegerBufferSize - buf.chars.length ≤ n)
    (hroom : buf.chars.length < printfIntegerBufferSize) :
    (putDigits base uppercase n value buf).chars = buf.chars ++
      (digitChars base uppercase value).take (printfIntegerBufferSize - buf.chars.length) := by
  induction n generalizing value buf with
  | zero => omega
  | succ n ih =>
    have hpush := push_chars hroom (digitChar uppercase (value % base))
    have hlen : (buf.push (digitChar uppercase (value % base))).chars.length =
        buf.chars.length + 1 := by
      rw [hpush, List.length_append, List.length_singleton]
    have hdigits : digitChars base uppercase value =
        digitChar uppercase (value % base) :: digitChars base uppercase (value / base) := by
      rw [digitChars, Nat.digits_def' hbase (Nat.pos_of_ne_zero hvalue), List.map_cons, digitChars]
    have hsize : printfIntegerBufferSize - buf.chars.length =
        printfIntegerBufferSize - (buf.chars.length + 1) + 1 := by omega
    rw [putDigits, hdigits, hsize, List.take_succ_cons]
    by_cases hmore : value / base ≠ 0 ∧
        (buf.push (digitChar uppercase (value % base))).len < printfIntegerBufferSize
    · have hroom' : (buf.push (digitChar uppercase (value % base))).chars.length <
          printfIntegerBufferSize := hmore.2
      simp only [if_pos hmore]
      rw [ih hmore.1 _ (by omega) hroom', hlen, hpush, List.append_assoc, List.singleton_append]
    · simp only [if_neg hmore]
      rw [hpush]
      obtain hlast | hfull := not_and_or.mp hmore
      · rw [not_not.mp hlast, digitChars, Nat.digits_zero, List.map_nil, List.take_nil]
      · have hzero : printfIntegerBufferSize - (buf.chars.length + 1) = 0 := by
          have hge : ¬ (buf.push (digitChar uppercase (value % base))).chars.length <
            printfIntegerBufferSize := hfull
          omega
        rw [hzero, List.take_zero]

def integerText (value : UInt64) (negative : Bool) (base : ℕ) (precision width : UInt32)
    (flags : PrintfFlags) : CString :=
  let start := startInteger value base flags
  let width := zerosWidth negative width flags
  fieldText (finishInteger start.1 negative base precision width start.2).chars.reverse width.toNat
    flags

theorem printInteger_eq (g : OutputGadget) (value : UInt64) (negative : Bool) (base : ℕ)
    (precision width : UInt32) (flags : PrintfFlags) :
    printInteger g value negative base precision width flags =
      g.puts (integerText value negative base precision width flags) := by
  have hflags : ∀ (chars : CString) (n : ℕ),
      fieldText chars n (startInteger value base flags).2 = fieldText chars n flags := by
    intro chars n
    unfold startInteger
    split_ifs <;> rfl
  have hwidth : zerosWidth negative width (startInteger value base flags).2 =
      zerosWidth negative width flags := by
    unfold startInteger
    split_ifs <;> rfl
  have hshort : ∀ buf : IntegerBuffer, buf.chars.length < 2^32 := fun buf =>
    buf.length_le.trans_lt (by decide)
  simp only [printInteger, printIntegerFinalization, outRev_eq (hshort _), hflags, hwidth,
    integerText]

end PrintfInteger

end BleFirmware
