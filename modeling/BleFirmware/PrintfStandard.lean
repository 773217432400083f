import BleFirmware.PrintfInteger
import Mathlib.Data.Nat.Digits.Lemmas

/-!
# The integers of `printf.c` against the C standard

What the C standard asks of a conversion is stated as a text: the sign, the prefix of
the alternative form, zeros up to the precision or the width, the digits, and pad
spaces. The library prints this text wherever the characters but the pad spaces fit
in its buffer.
-/

namespace BleFirmware.PrintfStandard
open OutputGadget PrintfInteger

def signText (negative : Bool) (flags : PrintfFlags) : CString :=
  if negative then [charOf '-'] else if flags.plus then [charOf '+']
  else if flags.space then [charOf ' '] else []

def alternativeText (base : ℕ) (uppercase : Bool) : CString :=
  if base = 16 then [charOf '0', if uppercase then charOf 'X' else charOf 'x']
  else if base = 2 then [charOf '0', charOf 'b'] else []

def precisionZeros (precision : ℕ) (flags : PrintfFlags) (d : ℕ) : ℕ :=
  (if flags.precision then precision else 1) - d

def widthZeros (width : ℕ) (flags : PrintfFlags) (lead d : ℕ) : ℕ :=
  if flags.zeropad ∧ ¬ flags.left then width - lead - d else 0

/-- The alternative form of an octal number begins with a zero. -/
def standardDigits (value base precision : ℕ) (flags : PrintfFlags) : CString :=
  let digits := (digitChars base flags.uppercase value).reverse
  let digits := List.replicate (precisionZeros precision flags digits.length) (charOf '0') ++ digits
  if flags.hash ∧ base = 8 ∧ digits.head? ≠ some (charOf '0') then charOf '0' :: digits else digits

def standardChars (value : ℕ) (negative : Bool) (base precision width : ℕ) (flags : PrintfFlags) :
    CString :=
  let lead := signText negative flags ++
    if flags.hash ∧ value ≠ 0 then alternativeText base flags.uppercase else []
  let digits := standardDigits value base precision flags
  lead ++ List.replicate (widthZeros width flags lead.length digits.length) (charOf '0') ++ digits

def standardText (value : ℕ) (negative : Bool) (base precision width : ℕ) (flags : PrintfFlags) :
    CString :=
  let chars := standardChars value negative base precision width flags
  let pad := List.replicate (width - chars.length) (charOf ' ')
  if flags.left then chars ++ pad else pad ++ chars

/-- The flags with which the conversions of integers call. -/
structure Regular (negative : Bool) (base : ℕ) (precision : UInt32) (flags : PrintfFlags) : Prop where
  base_mem : base = 2 ∨ base = 8 ∨ base = 10 ∨ base = 16
  precision_eq : flags.precision = false → precision = 0
  zeropad_eq : flags.precision = true → flags.zeropad = false
  hash_base : flags.hash = true → base ≠ 10
  hash_sign : flags.hash = true → signText negative flags = []
  pointer_eq : flags.pointer = false

variable {negative : Bool} {base : ℕ} {precision width : UInt32} {flags : PrintfFlags}
  {buf : IntegerBuffer} {digits : CString} {z : ℕ}

theorem length_signText_le (negative : Bool) (flags : PrintfFlags) :
    (signText negative flags).length ≤ 1 := by
  unfold signText
  split_ifs <;> decide

theorem putSign_chars (hroom : buf.chars.length + (signText negative flags).length ≤
      printfIntegerBufferSize) :
    (putSign buf negative flags).chars = buf.chars ++ signText negative flags := by
  unfold putSign signText at *
  split_ifs at * with hneg hplus hspace
  · exact push_chars hroom _
  · exact push_chars hroom _
  · exact push_chars hroom _
  · rw [List.append_nil]

theorem putZeros_chars (hprec : flags.zeropad = true → precision = 0) :
    (putZeros buf precision width flags).chars = buf.chars ++
      List.replicate (min (if flags.zeropad ∧ ¬ flags.left then width.toNat else precision.toNat)
        printfIntegerBufferSize - buf.chars.length) (charOf '0') := by
  by_cases hpad : flags.zeropad = true ∧ ¬ flags.left = true
  · have hcond : (!flags.left && flags.zeropad) = true := by simpa [and_comm] using hpad
    rw [putZeros, if_pos hcond, hprec hpad.1, padZeros_chars _ _ (Nat.sub_le _ _),
      padZeros_chars _ _ (Nat.sub_le _ _), if_pos hpad]
    simp
  · have hcond : ¬ (!flags.left && flags.zeropad) = true := by simpa [and_comm] using hpad
    rw [putZeros, if_neg hcond, padZeros_chars _ _ (Nat.sub_le _ _), if_neg hpad]

theorem putAlternative_none (hpointer : flags.pointer = false) {unpaddedLen : ℕ}
    (h : flags.hash = false ∨ (base = 8 ∧ unpaddedLen < buf.chars.length)) :
    putAlternative buf unpaddedLen base precision width flags = buf := by
  have hclosed : ¬ ((flags.hash && !(base == 8 && buf.len > unpaddedLen)) || flags.pointer) = true := by
    obtain hhash | ⟨hbase, hlen⟩ := h
    · simp [hhash, hpointer]
    · have hlen' : buf.len > unpaddedLen := hlen
      simp [hpointer, hbase, hlen']
  exact if_neg hclosed

theorem pop_padding (h : buf.chars = digits ++ List.replicate z (charOf '0')) :
    (if digits.length < buf.len then buf.pop else buf).chars =
      digits ++ List.replicate (z-1) (charOf '0') := by
  have hlen : buf.len = digits.length + z := by
    rw [IntegerBuffer.len, h, List.length_append, List.length_replicate]
  by_cases hlt : digits.length < buf.len
  · obtain ⟨k, rfl⟩ : ∃ k, z = k+1 := ⟨z-1, by omega⟩
    have hpop : buf.pop.chars = buf.chars.dropLast := rfl
    rw [if_pos hlt, hpop, h, List.replicate_succ', ← List.append_assoc, List.dropLast_concat]
    rfl
  · have hz : z = 0 := by omega
    rw [if_neg hlt, h, hz]

theorem takeBack_chars (h : buf.chars = digits ++ List.replicate z (charOf '0'))
    (hdigits : digits ≠ []) (hbase : base = 16 ∨ base = 2) :
    (takeBack buf digits.length base).chars =
      digits ++ List.replicate (z-2) (charOf '0') := by
  have hone := pop_padding h
  have hlen : (if digits.length < buf.len then buf.pop else buf).len ≠ 0 := by
    rw [IntegerBuffer.len, hone, List.length_append]
    have hpos := List.length_pos_of_ne_nil hdigits
    omega
  have hkind : (base == 16 || base == 2) = true := by simpa using hbase
  have htwo := pop_padding hone
  simpa [takeBack, hkind, hlen, Nat.sub_sub] using htwo

theorem putPrefix_chars (hbase : base = 16 ∨ base = 2)
    (hroom : buf.chars.length + 2 ≤ printfIntegerBufferSize) :
    (putPrefix buf base flags).chars = buf.chars ++ (alternativeText base flags.uppercase).reverse := by
  have hmark : ∀ c, ((buf.push c).push (charOf '0')).chars = buf.chars ++ [c, charOf '0'] := by
    intro c
    have hfirst := push_chars (Nat.lt_of_succ_lt hroom) c
    have hlen : (buf.push c).chars.length < printfIntegerBufferSize := by
      rw [hfirst, List.length_append]
      exact hroom
    rw [push_chars hlen, hfirst, List.append_assoc]
    rfl
  obtain rfl | rfl := hbase
  · cases hcase : flags.uppercase <;> simp [putPrefix, alternativeText, hcase, hmark]
  · simp [putPrefix, alternativeText, hmark]

theorem putAlternative_octal (hhash : flags.hash = true)
    (hroom : buf.chars.length < printfIntegerBufferSize) :
    (putAlternative buf buf.chars.length 8 precision width flags).chars =
      buf.chars ++ [charOf '0'] := by
  have hlen : buf.len = buf.chars.length := rfl
  rw [← push_chars hroom]
  simp [putAlternative, takeBack, putPrefix, hhash, hlen]

theorem putAlternative_prefix (hhash : flags.hash = true) (hbase : base = 16 ∨ base = 2)
    (hprec : flags.precision = false → precision = 0)
    (h : buf.chars = digits ++ List.replicate z (charOf '0')) (hdigits : digits ≠ [])
    {k : ℕ} (hk : k = if flags.precision = false ∧ digits.length + z = width.toNat then z-2 else z)
    (hroom : digits.length + k + 2 ≤ printfIntegerBufferSize) :
    (putAlternative buf digits.length base precision width flags).chars =
      digits ++ List.replicate k (charOf '0') ++ (alternativeText base flags.uppercase).reverse := by
  have hlen : buf.len = digits.length + z := by
    rw [IntegerBuffer.len, h, List.length_append, List.length_replicate]
  have hpos := List.length_pos_of_ne_nil hdigits
  have hopen : (flags.hash && !(base == 8 && buf.len > digits.length) || flags.pointer) = true := by
    obtain rfl | rfl := hbase <;> simp [hhash]
  have htake : (!flags.precision && buf.len != 0 &&
      (buf.len == precision.toNat || buf.len == width.toNat)) =
      decide (flags.precision = false ∧ digits.length + z = width.toNat) := by
    cases hp : flags.precision with
    | true => simp
    | false =>
      have hne : (digits.length + z == 0) = false := beq_false_of_ne (by omega)
      have hbeq : (digits.length + z == width.toNat) = decide (digits.length + z = width.toNat) :=
        rfl
      simp [hlen, hprec hp, bne, hne, hbeq]
  simp only [putAlternative, hopen, if_true, htake, decide_eq_true_eq]
  by_cases hback : flags.precision = false ∧ digits.length + z = width.toNat
  · rw [if_pos hback] at hk
    have hchars := takeBack_chars h hdigits hbase
    rw [if_pos hback, putPrefix_chars hbase (by rw [hchars]; simp; omega), hchars, hk]
  · rw [if_neg hback] at hk
    rw [if_neg hback, putPrefix_chars hbase (by rw [h]; simp; omega), h, hk]

def zerosCount (precision width : UInt32) (flags : PrintfFlags) (d : ℕ) : ℕ :=
  min (if flags.zeropad ∧ ¬ flags.left then width.toNat else precision.toNat)
    printfIntegerBufferSize - d

theorem finish_plain (hzeropad : flags.zeropad = true → precision = 0)
    (hpointer : flags.pointer = false) (hz : z = zerosCount precision width flags buf.chars.length)
    (hplain : flags.hash = false ∨ (base = 8 ∧ 0 < z))
    (hroom : buf.chars.length + z + (signText negative flags).length ≤ printfIntegerBufferSize) :
    (finishInteger buf negative base precision width flags).chars =
      buf.chars ++ List.replicate z (charOf '0') ++ signText negative flags := by
  have hzeros : (putZeros buf precision width flags).chars =
      buf.chars ++ List.replicate z (charOf '0') := by
    rw [hz]
    exact putZeros_chars hzeropad
  have hlen : (putZeros buf precision width flags).chars.length = buf.chars.length + z := by
    rw [hzeros, List.length_append, List.length_replicate]
  have hnone : flags.hash = false ∨
      (base = 8 ∧ buf.len < (putZeros buf precision width flags).chars.length) := by
    refine hplain.imp_right fun hoctal => ⟨hoctal.1, ?_⟩
    rw [hlen]
    exact Nat.lt_add_of_pos_right hoctal.2
  rw [finishInteger, putAlternative_none hpointer hnone, putSign_chars (by rwa [hlen]), hzeros]

theorem finish_octal (hzeropad : flags.zeropad = true → precision = 0)
    (hhash : flags.hash = true) (hsign : signText negative flags = [])
    (hz : zerosCount precision width flags buf.chars.length = 0)
    (hroom : buf.chars.length < printfIntegerBufferSize) :
    (finishInteger buf negative 8 precision width flags).chars = buf.chars ++ [charOf '0'] := by
  have hzeros : (putZeros buf precision width flags).chars = buf.chars := by
    rw [putZeros_chars hzeropad]
    change _ ++ List.replicate (zerosCount precision width flags buf.chars.length) _ = _
    rw [hz, List.replicate_zero, List.append_nil]
  have hlen : buf.len = (putZeros buf precision width flags).chars.length := by
    rw [hzeros]
    rfl
  have hmark : (putAlternative (putZeros buf precision width flags)
      (putZeros buf precision width flags).chars.length 8 precision width flags).chars =
        (putZeros buf precision width flags).chars ++ [charOf '0'] :=
    putAlternative_octal hhash (by rwa [hzeros])
  rw [hzeros] at hmark
  have hchars : (putAlternative (putZeros buf precision width flags) buf.len 8 precision width
      flags).chars = buf.chars ++ [charOf '0'] := by
    rw [hlen, hzeros]
    exact hmark
  rw [finishInteger, putSign_chars, hchars, hsign, List.append_nil]
  rw [hchars, hsign, List.length_append]
  exact hroom

theorem finish_prefixed (hzeropad : flags.zeropad = true → precision = 0)
    (hhash : flags.hash = true) (hbase : base = 16 ∨ base = 2)
    (hprec : flags.precision = false → precision = 0) (hsign : signText negative flags = [])
    (hdigits : buf.chars ≠ []) (hz : z = zerosCount precision width flags buf.chars.length)
    {k : ℕ} (hk : k = if flags.precision = false ∧ buf.chars.length + z = width.toNat then z-2 else z)
    (hroom : buf.chars.length + k + 2 ≤ printfIntegerBufferSize) :
    (finishInteger buf negative base precision width flags).chars =
      buf.chars ++ List.replicate k (charOf '0') ++
        (alternativeText base flags.uppercase).reverse := by
  have hzeros : (putZeros buf precision width flags).chars =
      buf.chars ++ List.replicate z (charOf '0') := by
    rw [hz]
    exact putZeros_chars hzeropad
  have hchars := putAlternative_prefix hhash hbase hprec hzeros hdigits hk hroom
  have htwo : (alternativeText base flags.uppercase).length = 2 := by
    obtain rfl | rfl := hbase <;> rfl
  have hlen : buf.len = buf.chars.length := rfl
  rw [finishInteger, hlen, putSign_chars, hchars, hsign, List.append_nil]
  rw [hchars, hsign]
  simpa [htwo, Nat.add_assoc] using hroom

theorem zerosWidth_toNat (negative : Bool) (width : UInt32) (flags : PrintfFlags) :
    (zerosWidth negative width flags).toNat =
      if flags.zeropad ∧ ¬ flags.left then width.toNat - (signText negative flags).length
      else width.toNat := by
  by_cases hpad : flags.zeropad = true ∧ ¬ flags.left = true
  · rw [if_pos hpad]
    have hleft : flags.left = false := by simpa using hpad.2
    by_cases hzero : width = 0
    · rw [hzero]
      simp [zerosWidth]
    · have hne : (width != 0) = true := by simpa using hzero
      unfold zerosWidth signText
      cases negative <;> cases hplus : flags.plus <;> cases hspace : flags.space <;>
        simp [hleft, hpad.1, hne, toNat_pred hzero]
  · rw [if_neg hpad]
    have hcond : ¬ (!flags.left && width != 0 && flags.zeropad &&
        (negative || flags.plus || flags.space)) = true := by
      intro hand
      simp only [Bool.and_eq_true, Bool.not_eq_true'] at hand
      exact hpad ⟨hand.1.2, by simp [hand.1.1.1]⟩
    rw [zerosWidth, if_neg hcond]

theorem digitChar_ne_zero : ∀ digit < 16, digit ≠ 0 → ∀ uppercase,
    digitChar uppercase digit ≠ charOf '0' := by
  decide

theorem head_digitChars (uppercase : Bool) {value : ℕ} (hvalue : value ≠ 0) :
    (digitChars 8 uppercase value).reverse.head? ≠ some (charOf '0') := by
  have hne : Nat.digits 8 value ≠ [] := Nat.digits_ne_nil_iff_ne_zero.mpr hvalue
  have hlast := Nat.getLast_digit_ne_zero 8 hvalue
  have hlt := Nat.digits_lt_base (b := 8) (by decide) (List.getLast_mem hne)
  rw [digitChars, List.head?_reverse, List.getLast?_map, List.getLast?_eq_some_getLast hne,
    Option.map_some]
  intro heq
  exact digitChar_ne_zero _ (by omega) hlast uppercase (Option.some.inj heq)

theorem start_chars {value : UInt64} (hbase : 1 < base) (hvalue : value ≠ 0)
    (hshort : (digitChars base flags.uppercase value.toNat).length ≤ printfIntegerBufferSize) :
    (startInteger value base flags).1.chars = digitChars base flags.uppercase value.toNat := by
  have hne : value.toNat ≠ 0 := fun h => hvalue (UInt64.toNat_inj.mp h)
  have hroom : IntegerBuffer.empty.chars.length < printfIntegerBufferSize := by decide
  rw [startInteger, if_neg hvalue,
    putDigits_chars hbase flags.uppercase hne _ (Nat.sub_le _ _) hroom]
  exact List.take_of_length_le hshort

theorem reverse_signText (negative : Bool) (flags : PrintfFlags) :
    (signText negative flags).reverse = signText negative flags := by
  unfold signText
  split_ifs <;> rfl

theorem standardChars_plain {value precision width : ℕ} (hhash : flags.hash = false)
    (hdigits : (digitChars base flags.uppercase value).reverse = digits) :
    standardChars value negative base precision width flags =
      signText negative flags ++
        List.replicate (widthZeros width flags (signText negative flags).length
          (precisionZeros precision flags digits.length + digits.length) +
            precisionZeros precision flags digits.length) (charOf '0') ++ digits := by
  simp only [standardChars, standardDigits, hdigits, hhash, Bool.false_eq_true, false_and, if_false,
    List.append_nil, List.length_append, List.length_replicate]
  rw [List.replicate_add]
  simp only [List.append_assoc]

theorem zerosCount_plain (h : Regular negative base precision flags) {s d : ℕ} (width : UInt32)
    (hs : s = (signText negative flags).length)
    (hd : flags.precision = true ∨ 0 < d)
    (hfits : s + widthZeros width.toNat flags s (precisionZeros precision.toNat flags d + d) +
      precisionZeros precision.toNat flags d + d ≤ printfIntegerBufferSize) :
    zerosCount precision (zerosWidth negative width flags) flags d =
      widthZeros width.toNat flags s (precisionZeros precision.toNat flags d + d) +
        precisionZeros precision.toNat flags d := by
  unfold zerosCount widthZeros precisionZeros at *
  rw [zerosWidth_toNat, ← hs]
  cases hp : flags.precision with
  | true =>
    simp only [hp, h.zeropad_eq hp] at *
    simp at *
    omega
  | false =>
    simp only [hp, h.precision_eq hp] at *
    by_cases hpad : flags.zeropad = true ∧ ¬ flags.left = true
    · simp only [if_pos hpad] at *
      simp at *
      omega
    · simp only [if_neg hpad] at *
      simp at *
      omega

theorem Regular.zeropad_precision (h : Regular negative base precision flags)
    (hpad : flags.zeropad = true) : precision = 0 := by
  cases hp : flags.precision with
  | true => exact absurd hpad (by rw [h.zeropad_eq hp]; decide)
  | false => exact h.precision_eq hp

def firstChars (value base : ℕ) (flags : PrintfFlags) : CString :=
  if value = 0 ∧ flags.precision = false then [charOf '0']
  else digitChars base flags.uppercase value

theorem length_digitChars_pos (base : ℕ) {value : ℕ}
    (h : ¬ (value = 0 ∧ flags.precision = false)) :
    flags.precision = true ∨ 0 < (digitChars base flags.uppercase value).length := by
  obtain hvalue | hprec := not_and_or.mp h
  · refine Or.inr ?_
    rw [digitChars, List.length_map]
    exact List.length_pos_of_ne_nil (Nat.digits_ne_nil_iff_ne_zero.mpr hvalue)
  · exact Or.inl (by simpa using hprec)

theorem finish_plain_standard (h : Regular negative base precision flags) {value : ℕ}
    (hhash : flags.hash = false) (hbuf : buf.chars = firstChars value base flags)
    (hfits : (standardChars value negative base precision.toNat width.toNat flags).length ≤
      printfIntegerBufferSize) :
    (finishInteger buf negative base precision (zerosWidth negative width flags) flags).chars.reverse =
      standardChars value negative base precision.toNat width.toNat flags := by
  rw [standardChars_plain hhash rfl] at hfits ⊢
  simp only [List.length_append, List.length_replicate, List.length_reverse] at hfits ⊢
  by_cases hzero : value = 0 ∧ flags.precision = false
  · -- the zero stands for the digit that the precision asks for
    have hone : buf.chars = [charOf '0'] := hbuf.trans (if_pos hzero)
    have hnone : digitChars base flags.uppercase value = [] := by
      rw [hzero.1, digitChars, Nat.digits_zero, List.map_nil]
    have hlen : buf.chars.length = 1 := by rw [hone, List.length_singleton]
    have hnoZeros : precisionZeros precision.toNat flags 1 = 0 := by simp [precisionZeros, hzero.2]
    have honeZero : precisionZeros precision.toNat flags 0 = 1 := by simp [precisionZeros, hzero.2]
    simp only [hnone, List.reverse_nil, List.length_nil, honeZero, Nat.add_zero,
      List.append_nil] at hfits ⊢
    have hcount := zerosCount_plain (s := (signText negative flags).length) (d := 1) h width rfl
      (Or.inr Nat.one_pos) (by rw [hnoZeros, Nat.zero_add]; omega)
    rw [hnoZeros, Nat.zero_add, Nat.add_zero, ← hlen] at hcount
    rw [finish_plain h.zeropad_precision h.pointer_eq hcount.symm (Or.inl hhash)
      (by rw [hlen]; omega), hone, List.length_singleton]
    simp only [List.reverse_append, List.reverse_replicate, reverse_signText,
      List.reverse_singleton, List.replicate_succ']
  · have hdigits : buf.chars = digitChars base flags.uppercase value := hbuf.trans (if_neg hzero)
    have hd := length_digitChars_pos base hzero
    have hcount := zerosCount_plain h width rfl hd (by omega)
    rw [← hdigits] at hcount hfits ⊢
    rw [finish_plain h.zeropad_precision h.pointer_eq hcount.symm (Or.inl hhash) (by omega)]
    simp only [List.reverse_append, List.reverse_replicate, reverse_signText, List.append_assoc]

theorem standardDigits_octal (hhash : flags.hash = true) (value precision : ℕ) :
    standardDigits value 8 precision flags =
      List.replicate (max 1 (precisionZeros precision flags
        (digitChars 8 flags.uppercase value).length)) (charOf '0') ++
          (digitChars 8 flags.uppercase value).reverse ∨
    (value = 0 ∧ flags.precision = false) := by
  by_cases hzero : value = 0 ∧ flags.precision = false
  · exact Or.inr hzero
  refine Or.inl ?_
  rw [standardDigits, List.length_reverse]
  cases hz : precisionZeros precision flags (digitChars 8 flags.uppercase value).length with
  | zero =>
    have hhead : (digitChars 8 flags.uppercase value).reverse.head? ≠ some (charOf '0') := by
      by_cases hvalue : value = 0
      · simp [hvalue, digitChars]
      · exact head_digitChars flags.uppercase hvalue
    rw [List.replicate_zero, List.nil_append, if_pos ⟨hhash, rfl, hhead⟩]
    rfl
  | succ n =>
    have hhead : (List.replicate (n+1) (charOf '0') ++
        (digitChars 8 flags.uppercase value).reverse).head? = some (charOf '0') := rfl
    rw [if_neg fun hand => hand.2.2 hhead, Nat.max_eq_right (Nat.succ_le_succ (Nat.zero_le n))]

theorem finish_octal_standard (h : Regular negative 8 precision flags) {value : ℕ}
    (hhash : flags.hash = true) (hzero : ¬ (value = 0 ∧ flags.precision = false))
    (hbuf : buf.chars = firstChars value 8 flags)
    (hfits : (standardChars value negative 8 precision.toNat width.toNat flags).length ≤
      printfIntegerBufferSize) :
    (finishInteger buf negative 8 precision (zerosWidth negative width flags) flags).chars.reverse =
      standardChars value negative 8 precision.toNat width.toNat flags := by
  have hdigits : buf.chars = digitChars 8 flags.uppercase value := hbuf.trans (if_neg hzero)
  have hsign := h.hash_sign hhash
  have hd := length_digitChars_pos 8 hzero
  have hstd : standardChars value negative 8 precision.toNat width.toNat flags =
      List.replicate (widthZeros width.toNat flags 0 (max 1 (precisionZeros precision.toNat flags
        buf.chars.length) + buf.chars.length) + max 1 (precisionZeros precision.toNat flags
          buf.chars.length)) (charOf '0') ++ buf.chars.reverse := by
    have hlead : signText negative flags ++
        (if flags.hash = true ∧ value ≠ 0 then alternativeText 8 flags.uppercase else []) = [] := by
      rw [hsign]
      split_ifs <;> rfl
    rw [standardChars, hlead, (standardDigits_octal hhash value _).resolve_right hzero, ← hdigits]
    simp only [List.nil_append, List.length_nil, List.length_append, List.length_replicate,
      List.length_reverse]
    rw [List.replicate_add, List.append_assoc]
  rw [hstd] at hfits ⊢
  rw [← hdigits] at hd
  simp only [List.length_append, List.length_replicate, List.length_reverse] at hfits
  have hwz : widthZeros width.toNat flags 0 (max 1 (precisionZeros precision.toNat flags
      buf.chars.length) + buf.chars.length) = widthZeros width.toNat flags 0
        (precisionZeros precision.toNat flags buf.chars.length + buf.chars.length) +
          precisionZeros precision.toNat flags buf.chars.length -
            max 1 (precisionZeros precision.toNat flags buf.chars.length) := by
    unfold widthZeros
    split_ifs <;> omega
  have hcount := zerosCount_plain (s := 0) h width (by rw [hsign, List.length_nil]) hd (by omega)
  obtain hnone | hsome := Nat.eq_zero_or_pos
    (zerosCount precision (zerosWidth negative width flags) flags buf.chars.length)
  · have hone : widthZeros width.toNat flags 0 (max 1 (precisionZeros precision.toNat flags
        buf.chars.length) + buf.chars.length) + max 1 (precisionZeros precision.toNat flags
          buf.chars.length) = 1 := by omega
    rw [hone] at hfits ⊢
    rw [finish_octal h.zeropad_precision hhash hsign hnone (by omega), List.reverse_append]
    rfl
  · have hall : widthZeros width.toNat flags 0 (max 1 (precisionZeros precision.toNat flags
        buf.chars.length) + buf.chars.length) + max 1 (precisionZeros precision.toNat flags
          buf.chars.length) =
            zerosCount precision (zerosWidth negative width flags) flags buf.chars.length := by omega
    have hroom : buf.chars.length +
        zerosCount precision (zerosWidth negative width flags) flags buf.chars.length +
          (signText negative flags).length ≤ printfIntegerBufferSize := by
      rw [hsign, List.length_nil]
      omega
    rw [hall, finish_plain h.zeropad_precision h.pointer_eq rfl (Or.inr ⟨rfl, hsome⟩) hroom, hsign,
      List.append_nil, List.reverse_append, List.reverse_replicate]

/-- A prefix of two characters takes the place of two padding zeros. -/
theorem finish_prefix_standard (h : Regular negative base precision flags) {value : ℕ}
    (hhash : flags.hash = true) (hbase : base = 16 ∨ base = 2) (hvalue : value ≠ 0)
    (hbuf : buf.chars = firstChars value base flags)
    (hfits : (standardChars value negative base precision.toNat width.toNat flags).length ≤
      printfIntegerBufferSize) :
    (finishInteger buf negative base precision (zerosWidth negative width flags) flags).chars.reverse =
      standardChars value negative base precision.toNat width.toNat flags := by
  have hdigits : buf.chars = digitChars base flags.uppercase value :=
    hbuf.trans (if_neg fun hand => hvalue hand.1)
  have hsign := h.hash_sign hhash
  have hne : buf.chars ≠ [] := by
    rw [hdigits, digitChars]
    exact mt List.map_eq_nil_iff.mp (Nat.digits_ne_nil_iff_ne_zero.mpr hvalue)
  have hpos := List.length_pos_of_ne_nil hne
  have hoctal : base ≠ 8 := by omega
  have htwo : (alternativeText base flags.uppercase).length = 2 := by
    obtain rfl | rfl := hbase <;> rfl
  have hstd : standardChars value negative base precision.toNat width.toNat flags =
      alternativeText base flags.uppercase ++
        List.replicate (widthZeros width.toNat flags 2 (precisionZeros precision.toNat flags
          buf.chars.length + buf.chars.length) + precisionZeros precision.toNat flags
            buf.chars.length) (charOf '0') ++ buf.chars.reverse := by
    rw [standardChars, standardDigits, hsign, if_pos ⟨hhash, hvalue⟩, ← hdigits,
      if_neg fun hand => hoctal hand.2.1]
    simp only [List.nil_append, htwo, List.length_append, List.length_replicate,
      List.length_reverse]
    rw [List.replicate_add]
    simp only [List.append_assoc]
  rw [hstd] at hfits ⊢
  simp only [List.length_append, List.length_replicate, List.length_reverse, htwo] at hfits
  have hwidth := zerosWidth_toNat negative width flags
  rw [hsign, List.length_nil, Nat.sub_zero, ite_self] at hwidth
  have hk : widthZeros width.toNat flags 2 (precisionZeros precision.toNat flags
      buf.chars.length + buf.chars.length) + precisionZeros precision.toNat flags
        buf.chars.length =
      if flags.precision = false ∧ buf.chars.length + zerosCount precision
          (zerosWidth negative width flags) flags buf.chars.length =
            (zerosWidth negative width flags).toNat then
        zerosCount precision (zerosWidth negative width flags) flags buf.chars.length - 2
      else zerosCount precision (zerosWidth negative width flags) flags buf.chars.length := by
    unfold zerosCount widthZeros precisionZeros at *
    rw [hwidth]
    cases hp : flags.precision with
    | true =>
      simp only [hp, h.zeropad_eq hp] at *
      simp at *
      omega
    | false =>
      simp only [hp, h.precision_eq hp] at *
      by_cases hpad : flags.zeropad = true ∧ ¬ flags.left = true
      · simp only [if_pos hpad] at *
        simp at *
        split <;> omega
      · simp only [if_neg hpad] at *
        simp at *
        omega
  rw [finish_prefixed h.zeropad_precision hhash hbase h.precision_eq hsign hne rfl hk (by omega)]
  simp only [List.reverse_append, List.reverse_reverse, List.reverse_replicate, List.append_assoc]

theorem length_digitChars_le (value : ℕ) (negative : Bool) (base precision width : ℕ)
    (flags : PrintfFlags) :
    (digitChars base flags.uppercase value).length ≤
      (standardChars value negative base precision width flags).length := by
  simp only [standardChars, standardDigits, List.length_append]
  split_ifs <;> simp <;> omega

/-- A zero has no alternative form of its own: an octal one begins with a zero anyway. -/
theorem standardChars_zero {negative : Bool} {base precision width : ℕ}
    (h : flags.precision = false ∨ base = 16) :
    standardChars 0 negative base precision width { flags with hash := false } =
      standardChars 0 negative base precision width flags := by
  have hdigits : standardDigits 0 base precision { flags with hash := false } =
      standardDigits 0 base precision flags := by
    obtain hprec | rfl := h
    · simp [standardDigits, digitChars, precisionZeros, hprec]
    · simp [standardDigits, precisionZeros]
  have hsign : signText negative { flags with hash := false } = signText negative flags := rfl
  simp only [standardChars, hdigits, hsign, ne_eq, not_true_eq_false, and_false, if_false]
  rfl

theorem Regular.noHash (h : Regular negative base precision flags) :
    Regular negative base precision { flags with hash := false } :=
  ⟨h.base_mem, h.precision_eq, h.zeropad_eq, nofun, nofun, h.pointer_eq⟩

theorem finish_zero_standard (h : Regular negative base precision flags)
    (hsame : flags.precision = false ∨ base = 16) (hbuf : buf.chars = firstChars 0 base flags)
    (hfits : (standardChars 0 negative base precision.toNat width.toNat flags).length ≤
      printfIntegerBufferSize) :
    (finishInteger buf negative base precision (zerosWidth negative width flags)
        { flags with hash := false }).chars.reverse =
      standardChars 0 negative base precision.toNat width.toNat flags := by
  rw [← standardChars_zero hsame] at hfits ⊢
  exact finish_plain_standard h.noHash rfl hbuf hfits

/-- What `print_integer` leaves in its buffer is the number as the standard has it, as
long as that fits. The one exception is a binary zero with a precision, which keeps its
prefix. -/
theorem finish_standard (h : Regular negative base precision flags) {value : UInt64}
    (hbinary : ¬ (value = 0 ∧ base = 2 ∧ flags.hash = true ∧ flags.precision = true))
    (hfits : (standardChars value.toNat negative base precision.toNat width.toNat flags).length ≤
      printfIntegerBufferSize) :
    (finishInteger (startInteger value base flags).1 negative base precision
        (zerosWidth negative width flags) (startInteger value base flags).2).chars.reverse =
      standardChars value.toNat negative base precision.toNat width.toNat flags := by
  have hshort := (length_digitChars_le value.toNat negative base precision.toNat width.toNat
    flags).trans hfits
  have hone : 1 < base := by
    have hbase := h.base_mem
    omega
  by_cases hvalue : value = 0
  · subst hvalue
    cases hprec : flags.precision with
    | false =>
      have hstart : startInteger 0 base flags =
          (IntegerBuffer.empty.push (charOf '0'), { flags with hash := false }) := by
        simp [startInteger, hprec]
      have hbuf : (IntegerBuffer.empty.push (charOf '0')).chars = firstChars 0 base flags :=
        (push_chars (by decide) _).trans (if_pos ⟨rfl, hprec⟩).symm
      rw [hstart]
      exact finish_zero_standard h (Or.inl hprec) hbuf hfits
    | true =>
      have hopen : ¬ (0 = 0 ∧ flags.precision = false) := by simp [hprec]
      have hbuf : IntegerBuffer.empty.chars = firstChars 0 base flags := by
        rw [firstChars, if_neg hopen, digitChars, Nat.digits_zero]
        rfl
      by_cases hhex : base = 16
      · have hstart : startInteger 0 base flags = (.empty, { flags with hash := false }) := by
          simp [startInteger, hprec, hhex]
        rw [hstart]
        exact finish_zero_standard h (Or.inr hhex) hbuf hfits
      · have hstart : startInteger 0 base flags = (.empty, flags) := by
          simp [startInteger, hprec, hhex]
        rw [hstart]
        cases hhash : flags.hash with
        | false => exact finish_plain_standard h hhash hbuf hfits
        | true =>
          obtain rfl | rfl | rfl | rfl := h.base_mem
          · exact absurd ⟨rfl, rfl, hhash, hprec⟩ hbinary
          · exact finish_octal_standard h hhash hopen hbuf hfits
          · exact absurd rfl (h.hash_base hhash)
          · exact absurd rfl hhex
  · have hne : value.toNat ≠ 0 := fun heq => hvalue (UInt64.toNat_inj.mp heq)
    have hstart : (startInteger value base flags).2 = flags := by
      rw [startInteger, if_neg hvalue]
    have hbuf : (startInteger value base flags).1.chars = firstChars value.toNat base flags :=
      (start_chars hone hvalue hshort).trans (if_neg fun hand => hne hand.1).symm
    rw [hstart]
    cases hhash : flags.hash with
    | false => exact finish_plain_standard h hhash hbuf hfits
    | true =>
      obtain rfl | rfl | rfl | rfl := h.base_mem
      · exact finish_prefix_standard h hhash (Or.inr rfl) hne hbuf hfits
      · exact finish_octal_standard h hhash (fun hand => hne hand.1) hbuf hfits
      · exact absurd rfl (h.hash_base hhash)
      · exact finish_prefix_standard h hhash (Or.inl rfl) hne hbuf hfits

theorem standardChars_width (value : ℕ) (negative : Bool) (base precision width : ℕ)
    (hpad : flags.zeropad = true ∧ ¬ flags.left = true) :
    width ≤ (standardChars value negative base precision width flags).length := by
  simp only [standardChars, widthZeros, if_pos hpad, List.length_append, List.length_replicate]
  omega

theorem integerText_standard (h : Regular negative base precision flags) (width : UInt32)
    {value : UInt64}
    (hbinary : ¬ (value = 0 ∧ base = 2 ∧ flags.hash = true ∧ flags.precision = true))
    (hfits : (standardChars value.toNat negative base precision.toNat width.toNat flags).length ≤
      printfIntegerBufferSize) :
    integerText value negative base precision width flags =
      standardText value.toNat negative base precision.toNat width.toNat flags := by
  simp only [integerText, finish_standard h hbinary hfits, fieldText, standardText,
    zerosWidth_toNat]
  by_cases hpad : flags.zeropad = true ∧ ¬ flags.left = true
  · have hleft : flags.left = false := by simpa using hpad.2
    have hwide := standardChars_width value.toNat negative base precision.toNat width.toNat hpad
    simp [hleft, hpad.1, Nat.sub_eq_zero_of_le hwide]
  · rw [if_neg hpad]
    cases hleft : flags.left with
    | true => simp
    | false =>
      have hzeropad : flags.zeropad = false := by simpa [hleft] using hpad
      simp [hzeropad]

end BleFirmware.PrintfStandard
