import BleFirmware.PrintfDecimal

/-!
# The row of a floating point number

The characters of a number in the order in which they are stored: the fraction, the point,
the digits in front of it, the zeros of the width and the sign. With room for all of them
the buffer holds them.
-/

namespace BleFirmware.PrintfDecimal
open PrintfInteger PrintfStandard OutputGadget

variable {buf : IntegerBuffer}

/-- The digits of a number, the lowest first, and a zero as one digit. -/
def shown (value : ℕ) : CString := digitChar false (value % 10) :: digitChars 10 false (value / 10)

theorem shown_of_ne_zero {value : ℕ} (h : value ≠ 0) : digitChars 10 false value = shown value := by
  rw [digitChars, Nat.digits_def' (by decide) (Nat.pos_of_ne_zero h)]
  rfl

theorem putDigits_shown {n : ℕ} (value : ℕ) (hn : printfIntegerBufferSize - buf.chars.length ≤ n)
    (hroom : buf.chars.length + (shown value).length ≤ printfIntegerBufferSize) :
    (putDigits 10 false n value buf).chars = buf.chars ++ shown value := by
  have hone : (shown value).length = (digitChars 10 false (value / 10)).length + 1 := rfl
  have hlt : buf.chars.length < printfIntegerBufferSize := by omega
  obtain ⟨m, rfl⟩ : ∃ m, n = m+1 := ⟨n-1, by omega⟩
  have hpush := push_chars hlt (digitChar false (value % 10))
  by_cases hzero : value = 0
  · subst hzero
    exact hpush
  · rw [putDigits_chars (by decide) false hzero buf hn hlt, shown_of_ne_zero hzero,
      List.take_of_length_le (by omega)]

theorem length_digitChars_le {value k : ℕ} (h : value < 10^k) :
    (digitChars 10 false value).length ≤ k := by
  rw [digitChars, List.length_map, Nat.digits_length_le_iff (by decide)]
  exact h

theorem length_shown_le {value k : ℕ} (h : value < 10^k) (hk : 0 < k) :
    (shown value).length ≤ k := by
  obtain ⟨j, rfl⟩ : ∃ j, k = j+1 := ⟨k-1, by omega⟩
  refine Nat.succ_le_succ (length_digitChars_le (Nat.div_lt_of_lt_mul ?_))
  rwa [pow_succ, Nat.mul_comm] at h

theorem fractionChar_natCast (fractional : ℕ) :
    fractionChar fractional = digitChar false (fractional % 10) := by
  have hall : ∀ d < 10, charOf '0' + UInt8.ofInt (d : ℕ) = digitChar false d := by decide
  have hmod : (fractional : ℤ).tmod 10 = (fractional % 10 : ℕ) := Int.ofNat_tmod _ _
  rw [fractionChar, hmod]
  exact hall _ (Nat.mod_lt _ (by decide))

theorem putFraction_shown {n : ℕ} (fractional : ℕ) (count : UInt32) (buf : IntegerBuffer)
    (hn : printfIntegerBufferSize - buf.chars.length ≤ n)
    (hroom : buf.chars.length + (shown fractional).length ≤ printfIntegerBufferSize)
    (hcount : (shown fractional).length ≤ count.toNat) :
    (putFraction n fractional count buf).1.chars = buf.chars ++ shown fractional ∧
      (putFraction n fractional count buf).2.toNat = count.toNat - (shown fractional).length := by
  induction n generalizing fractional count buf with
  | zero =>
    rw [shown, List.length_cons] at hroom
    omega
  | succ n ih =>
    have hone : (shown fractional).length = (digitChars 10 false (fractional / 10)).length + 1 := rfl
    have hlt : buf.chars.length < printfIntegerBufferSize := by omega
    have hpush := push_chars hlt (digitChar false (fractional % 10))
    have hpred : (count - 1).toNat = count.toNat - 1 := toNat_pred (by
      rintro rfl
      exact Nat.not_succ_le_zero _ (hone ▸ hcount))
    have hmore : buf.len < printfIntegerBufferSize := hlt
    have hlen : (buf.push (digitChar false (fractional % 10))).chars.length =
        buf.chars.length + 1 := by
      rw [hpush, List.length_append, List.length_singleton]
    have htenth : (fractional : ℤ).tdiv 10 = (fractional / 10 : ℕ) := Int.ofNat_tdiv _ _
    rw [putFraction, if_pos hmore, fractionChar_natCast, htenth]
    dsimp only
    by_cases hlast : fractional / 10 = 0
    · have hshown : shown fractional = [digitChar false (fractional % 10)] := by
        rw [shown, hlast, digitChars, Nat.digits_zero, List.map_nil]
      rw [if_pos (Int.natCast_eq_zero.mpr hlast), hshown]
      exact ⟨hpush, hpred⟩
    · have hnext := shown_of_ne_zero hlast
      rw [hnext] at hone
      obtain ⟨hchars, hleft⟩ := ih (fractional / 10) (count - 1)
        (buf.push (digitChar false (fractional % 10))) (by omega) (by omega) (by omega)
      rw [if_neg (mt Int.natCast_eq_zero.mp hlast)]
      refine ⟨?_, by omega⟩
      rw [hchars, hpush, List.append_assoc, List.singleton_append, ← hnext]
      rfl

theorem putCount_chars {n : ℕ} (count : UInt32) (buf : IntegerBuffer) (hn : count.toNat ≤ n)
    (hroom : buf.chars.length + count.toNat ≤ printfIntegerBufferSize) :
    (putCount n count buf).chars = buf.chars ++ List.replicate count.toNat (charOf '0') := by
  induction n generalizing count buf with
  | zero =>
    have hzero : count.toNat = 0 := Nat.le_zero.mp hn
    simp [putCount, hzero]
  | succ n ih =>
    rw [putCount]
    by_cases hzero : count = 0
    · have hstop : ¬ (buf.len < printfIntegerBufferSize ∧ 0 < count) := by
        rw [hzero]
        exact fun h => absurd h.2 (by decide)
      rw [if_neg hstop, hzero]
      exact (List.append_nil _).symm
    · have hpos := toNat_pos hzero
      have hlt : buf.chars.length < printfIntegerBufferSize := by omega
      have hpush := push_chars hlt (charOf '0')
      have hpred := toNat_pred hzero
      have hmore : buf.len < printfIntegerBufferSize ∧ 0 < count :=
        ⟨hlt, UInt32.lt_iff_toNat_lt.mpr hpos⟩
      have hsucc : count.toNat = count.toNat - 1 + 1 := by omega
      rw [if_pos hmore, ih _ _ (by omega) (by rw [hpush, List.length_append, hpred]; simp; omega),
        hpush, hpred, hsucc, List.replicate_succ, List.append_assoc, List.singleton_append]
      rfl

theorem skipZeros_spec {n : ℕ} {count : UInt32} {fractional : ℕ} (hpos : 0 < fractional)
    (hn : fractional ≤ n) (hlt : fractional < 10^count.toNat) :
    let r := skipZeros n count fractional
    ∃ k, r.1.toNat + k = count.toNat ∧ fractional = r.2 * 10^k ∧ 0 < r.2 := by
  induction n generalizing count fractional with
  | zero => omega
  | succ n ih =>
    dsimp only
    rw [skipZeros]
    by_cases hdigit : fractional % 10 = 0
    · have htenth : fractional = fractional / 10 * 10 := by omega
      have hcount : 1 < count.toNat := by
        by_contra hle
        have hpow : 10^count.toNat ≤ 10^1 := Nat.pow_le_pow_right (by decide) (by omega)
        omega
      have hne : count ≠ 0 := by
        rintro rfl
        exact absurd hcount (by decide)
      have hpred := toNat_pred hne
      have hpow : 10^count.toNat = 10 * 10^(count.toNat - 1) := by
        rw [← pow_succ', Nat.sub_add_cancel (by omega)]
      have hlt' : fractional / 10 < 10^(count - 1).toNat := by
        rw [hpred]
        omega
      obtain ⟨k, hk, hvalue, hleft⟩ := ih (by omega) (by omega) hlt'
      rw [if_neg (not_not.mpr hdigit)]
      refine ⟨k+1, by omega, ?_, hleft⟩
      rw [pow_succ, ← Nat.mul_assoc, ← hvalue]
      exact htenth
    · rw [if_pos hdigit]
      exact ⟨0, rfl, by rw [pow_zero, Nat.mul_one], hpos⟩

def trimmed (fractional : ℕ) (precision : UInt32) (flags : PrintfFlags) : UInt32 × ℕ :=
  if flags.adaptExp && !flags.hash && 0 < fractional then skipZeros fractional precision fractional
  else (precision, fractional)

def pointPrinted (fractional : ℕ) (precision : UInt32) (flags : PrintfFlags) : Bool :=
  if precision ≠ 0 then 0 < fractional || !flags.adaptExp || flags.hash else flags.hash

def fractionRow (fractional : ℕ) (precision : UInt32) (flags : PrintfFlags) : CString :=
  if pointPrinted fractional precision flags then
    (if precision ≠ 0 then
      let r := trimmed fractional precision flags
      shown r.2 ++ List.replicate (r.1.toNat - (shown r.2).length) (charOf '0')
    else []) ++ [charOf '.']
  else []

theorem trimmed_spec {fractional : ℕ} {precision : UInt32} (flags : PrintfFlags)
    (hlt : fractional < 10^precision.toNat) (hprecision : precision ≠ 0) :
    let r := trimmed fractional precision flags
    (∃ k, r.1.toNat + k = precision.toNat ∧ fractional = r.2 * 10^k) ∧
      (0 < r.2 ↔ 0 < fractional) ∧ (shown r.2).length ≤ r.1.toNat := by
  have hpos := toNat_pos hprecision
  dsimp only
  unfold trimmed
  split_ifs with h
  · have hfractional : 0 < fractional := by simp at h; omega
    obtain ⟨k, hk, hvalue, hleft⟩ := skipZeros_spec hfractional le_rfl hlt
    have hsmall : (skipZeros fractional precision fractional).2 <
        10^(skipZeros fractional precision fractional).1.toNat := by
      rw [hvalue, ← hk, pow_add] at hlt
      exact lt_of_mul_lt_mul_right hlt (Nat.zero_le _)
    have hcount : 0 < (skipZeros fractional precision fractional).1.toNat := by
      by_contra hzero
      rw [Nat.eq_zero_of_not_pos hzero, pow_zero] at hsmall
      omega
    exact ⟨⟨k, hk, hvalue⟩, iff_of_true hleft hfractional, length_shown_le hsmall hcount⟩
  · exact ⟨⟨0, rfl, by rw [pow_zero, Nat.mul_one]⟩, Iff.rfl, length_shown_le hlt hpos⟩

theorem putPoint_chars {count : UInt32} {fractional : ℕ}
    (hdigits : (shown fractional).length ≤ count.toNat)
    (hroom : buf.chars.length + count.toNat + 1 ≤ printfIntegerBufferSize) :
    let s := putFraction printfIntegerBufferSize fractional count buf
    ((putCount printfIntegerBufferSize s.2 s.1).push (charOf '.')).chars = buf.chars ++
      (shown fractional ++ List.replicate (count.toNat - (shown fractional).length) (charOf '0') ++
        [charOf '.']) := by
  intro s
  obtain ⟨hchars, hleft⟩ := putFraction_shown (n := printfIntegerBufferSize) fractional count buf
    (Nat.sub_le _ _) (by omega) hdigits
  have hlen : s.1.chars.length = buf.chars.length + (shown fractional).length := by
    rw [hchars, List.length_append]
  have hcount : s.2.toNat = count.toNat - (shown fractional).length := hleft
  have hzeros := putCount_chars (n := printfIntegerBufferSize) s.2 s.1 (by omega) (by omega)
  have hall : (putCount printfIntegerBufferSize s.2 s.1).chars.length =
      buf.chars.length + count.toNat := by
    rw [hzeros, List.length_append, List.length_replicate]
    omega
  rw [push_chars (by omega), hzeros, hchars, hcount]
  simp only [List.append_assoc]

theorem putFractionalPart_of_ne {precision : UInt32} (h : precision ≠ 0) (fractional : ℕ)
    (flags : PrintfFlags) :
    putFractionalPart buf fractional precision flags =
      let r := trimmed fractional precision flags
      if 0 < r.2 || !flags.adaptExp || flags.hash then
        let s := putFraction printfIntegerBufferSize r.2 r.1 buf
        (putCount printfIntegerBufferSize s.2 s.1).push (charOf '.')
      else buf := by
  have hcast (n : ℕ) : decide ((0 : ℤ) < n) = decide (0 < n) := decide_eq_decide.mpr Int.natCast_pos
  rw [putFractionalPart, if_pos h, Int.toNat_natCast, trimmed, hcast]
  dsimp only
  by_cases hskip : (flags.adaptExp && !flags.hash && decide (0 < fractional)) = true
  · rw [if_pos hskip, if_pos hskip]
    simp only [Prod.map_fst, Prod.map_snd, id_eq, hcast]
  · rw [if_neg hskip, if_neg hskip]
    simp only [hcast]

theorem fractionRow_of_ne {fractional : ℕ} {precision : UInt32} {flags : PrintfFlags}
    (h : precision ≠ 0) (hpoint : pointPrinted fractional precision flags = true) :
    fractionRow fractional precision flags =
      shown (trimmed fractional precision flags).2 ++
        List.replicate ((trimmed fractional precision flags).1.toNat -
          (shown (trimmed fractional precision flags).2).length) (charOf '0') ++ [charOf '.'] := by
  rw [fractionRow, if_pos hpoint, if_pos h]

theorem fractionRow_of_not {fractional : ℕ} {precision : UInt32} {flags : PrintfFlags}
    (hpoint : pointPrinted fractional precision flags = false) :
    fractionRow fractional precision flags = [] := by
  rw [fractionRow, hpoint, if_neg Bool.false_ne_true]

theorem pointPrinted_trimmed {fractional : ℕ} {precision : UInt32} (flags : PrintfFlags)
    (hlt : fractional < 10^precision.toNat) (hprecision : precision ≠ 0) :
    (0 < (trimmed fractional precision flags).2 || !flags.adaptExp || flags.hash : Bool) =
      pointPrinted fractional precision flags := by
  rw [pointPrinted, if_pos hprecision,
    decide_eq_decide.mpr (trimmed_spec flags hlt hprecision).2.1]

theorem putFractionalPart_chars {fractional : ℕ} {precision : UInt32} {flags : PrintfFlags}
    (hlt : fractional < 10^precision.toNat)
    (hroom : buf.chars.length + (fractionRow fractional precision flags).length ≤
      printfIntegerBufferSize) :
    (putFractionalPart buf fractional precision flags).chars =
      buf.chars ++ fractionRow fractional precision flags := by
  by_cases hprecision : precision = 0
  · subst hprecision
    cases hhash : flags.hash with
    | false => simp [putFractionalPart, fractionRow, pointPrinted, hhash]
    | true =>
      have hrow : fractionRow fractional 0 flags = [charOf '.'] := by
        simp [fractionRow, pointPrinted, hhash]
      rw [hrow] at hroom ⊢
      simp only [putFractionalPart, hhash, ne_eq, not_true_eq_false, if_false, if_true]
      exact push_chars hroom _
  · rw [putFractionalPart_of_ne hprecision]
    dsimp only
    rw [pointPrinted_trimmed flags hlt hprecision]
    cases hpoint : pointPrinted fractional precision flags with
    | false =>
      rw [fractionRow_of_not hpoint, List.append_nil]
      rfl
    | true =>
      obtain ⟨-, -, hdigits⟩ := trimmed_spec flags hlt hprecision
      rw [fractionRow_of_ne hprecision hpoint] at hroom ⊢
      simp only [List.length_append, List.length_replicate, List.length_singleton] at hroom
      exact putPoint_chars hdigits (by omega)

/-- The fraction has the digits of the precision. -/
def Proper (number : Components) (precision : UInt32) : Prop :=
  0 ≤ number.fractional ∧ number.fractional < 10^precision.toNat

theorem Proper.toNat_lt {number : Components} {precision : UInt32} (h : Proper number precision) :
    number.fractional.toNat < 10^precision.toNat := by
  rw [Int.toNat_lt h.1]
  exact_mod_cast h.2

/-- All that is written behind the zeros of `front`, for a width without the sign. -/
def decimalRow (number : Components) (precision width : UInt32) (flags : PrintfFlags)
    (front : CString) : CString :=
  let row := front ++ fractionRow number.fractional.toNat precision flags ++ shown number.integral
  row ++ List.replicate (if flags.zeropad ∧ ¬ flags.left then width.toNat - row.length else 0)
    (charOf '0') ++ signText number.isNegative flags

theorem padZeros_room {limit : UInt32} (buf : IntegerBuffer)
    (hroom : buf.chars.length + (limit.toNat - buf.chars.length) ≤ printfIntegerBufferSize) :
    (padZeros limit printfIntegerBufferSize buf).chars =
      buf.chars ++ List.replicate (limit.toNat - buf.chars.length) (charOf '0') := by
  have hmin : min limit.toNat printfIntegerBufferSize - buf.chars.length =
      limit.toNat - buf.chars.length := by omega
  rw [padZeros_chars limit buf (Nat.sub_le _ _), hmin]

theorem finishDecimal_chars {number : Components} {precision width : UInt32} {flags : PrintfFlags}
    (hproper : Proper number precision)
    (hfits : (decimalRow number precision width flags buf.chars).length ≤ printfIntegerBufferSize) :
    (finishDecimal number precision width flags buf).chars =
      decimalRow number precision width flags buf.chars := by
  unfold decimalRow at *
  dsimp only at *
  have hlen := hfits
  simp only [List.length_append, List.length_replicate] at hlen
  have hfraction : (putFractionalPart buf number.fractional precision flags).chars =
      buf.chars ++ fractionRow number.fractional.toNat precision flags := by
    have hchars : (putFractionalPart buf (number.fractional.toNat : ℤ) precision flags).chars =
        buf.chars ++ fractionRow number.fractional.toNat precision flags :=
      putFractionalPart_chars hproper.toNat_lt (by omega)
    rwa [Int.toNat_of_nonneg hproper.1] at hchars
  have hroom : (putFractionalPart buf number.fractional precision flags).chars.length +
      (shown number.integral).length ≤ printfIntegerBufferSize := by
    rw [hfraction, List.length_append]
    omega
  have hwhole := putDigits_shown number.integral (Nat.sub_le _ _) hroom
  rw [hfraction] at hwhole
  unfold finishDecimal
  dsimp only
  generalize putDigits 10 false printfIntegerBufferSize number.integral
    (putFractionalPart buf number.fractional precision flags) = row at *
  rw [← hwhole] at hfits ⊢
  by_cases hpad : flags.zeropad = true ∧ ¬ flags.left = true
  · have hcond : (!flags.left && flags.zeropad) = true := by simpa [and_comm] using hpad
    rw [if_pos hpad] at hfits ⊢
    simp only [List.length_append, List.length_replicate] at hfits
    have hzeros : (padZeros width printfIntegerBufferSize row).chars = row.chars ++
        List.replicate (width.toNat - row.chars.length) (charOf '0') :=
      padZeros_room row (by omega)
    rw [if_pos hcond, putSign_chars (by rw [hzeros, List.length_append, List.length_replicate]; omega),
      hzeros]
  · have hcond : ¬ (!flags.left && flags.zeropad) = true := by simpa [and_comm] using hpad
    rw [if_neg hpad, List.replicate_zero, List.append_nil] at hfits ⊢
    rw [List.length_append] at hfits
    rw [if_neg hcond, putSign_chars hfits]

end BleFirmware.PrintfDecimal
