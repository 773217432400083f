import BleFirmware.PrintfDirective

/-!
# Reading integers back

The reader skips spaces, takes a sign and the prefix of its base, and reads the longest
row of digits, a row of none as zero. It undoes the integer directives.
-/

namespace BleFirmware.PrintfReading
open PrintfSyntax PrintfInteger PrintfStandard PrintfDirective PrintfCalls

def digitValue (c : UInt8) : Option ℕ :=
  if charOf '0' ≤ c ∧ c ≤ charOf '9' then some (c - charOf '0').toNat
  else if charOf 'a' ≤ c ∧ c ≤ charOf 'f' then some (c - charOf 'a' + 10).toNat
  else if charOf 'A' ≤ c ∧ c ≤ charOf 'F' then some (c - charOf 'A' + 10).toNat
  else none

theorem digitValue_digitChar : ∀ d < 16, ∀ uppercase, digitValue (digitChar uppercase d) = some d := by
  decide

/-- The digits of a base up to 16, in one case of the letters. -/
def digitAlphabet (base : ℕ) (uppercase : Bool) (h : 0 < base ∧ base ≤ 16) : Alphabet UInt8 where
  base := base
  symbol := digitChar uppercase
  digit c := (digitValue c).filter (· < base)
  base_pos := h.1
  digit_symbol d hd := by
    rw [digitValue_digitChar d (hd.trans_le h.2)]
    simp [hd]

def skipSpaces (text : CString) : CString := text.dropWhile (· == charOf ' ')

def readSign (text : CString) : Bool × CString :=
  if deref text = charOf '-' then (true, text.tail)
  else if deref text = charOf '+' then (false, text.tail)
  else (false, text)

def skipPrefix (base : ℕ) (text : CString) : CString :=
  if deref text = charOf '0' ∧
      (base = 16 ∧ (deref text.tail = charOf 'x' ∨ deref text.tail = charOf 'X') ∨
        base = 2 ∧ deref text.tail = charOf 'b') then
    text.tail.tail
  else text

def readDigits (A : Alphabet UInt8) (text : CString) : ℕ :=
  (A.read (text.takeWhile fun c => (A.digit c).isSome)).getD 0

def readInteger (A : Alphabet UInt8) (text : CString) : ℤ :=
  let r := readSign (skipSpaces text)
  let value := readDigits A (skipPrefix A.base r.2)
  if r.1 then -value else value

variable {base : ℕ} {uppercase : Bool} {h : 0 < base ∧ base ≤ 16}

theorem readDigits_append {A : Alphabet UInt8} {body pad : CString} {value : ℕ}
    (hbody : A.read body = some value) (hdigits : ∀ c ∈ body, (A.digit c).isSome = true)
    (hpad : (A.digit (deref pad)).isSome = false) :
    readDigits A (body ++ pad) = value := by
  have hstop : pad.takeWhile (fun c => (A.digit c).isSome) = [] := by
    cases pad with
    | nil => rfl
    | cons c pad =>
      rw [deref_cons] at hpad
      simp [hpad]
  rw [readDigits, List.takeWhile_append_of_pos hdigits, hstop, List.append_nil, hbody]
  rfl

theorem skipSpaces_replicate (k : ℕ) (text : CString) :
    skipSpaces (List.replicate k (charOf ' ') ++ text) = skipSpaces text :=
  List.dropWhile_append_of_pos fun c hc => by simp [List.eq_of_mem_replicate hc]

theorem skipSpaces_eq {text : CString} (hne : deref text ≠ charOf ' ') : skipSpaces text = text := by
  cases text with
  | nil => rfl
  | cons c text =>
    rw [deref_cons] at hne
    exact List.dropWhile_cons_of_neg (by simpa using hne)

theorem digit_isSome_iff (base : ℕ) (uppercase : Bool) (h : 0 < base ∧ base ≤ 16) (c : UInt8) :
    ((digitAlphabet base uppercase h).digit c).isSome = true ↔
      ∃ d < base, digitValue c = some d := by
  change ((digitValue c).filter (· < base)).isSome = true ↔ _
  cases digitValue c with
  | none => simp
  | some d => simp [Option.filter]

theorem digitValue_none : digitValue (charOf ' ') = none ∧ digitValue (charOf '-') = none ∧
    digitValue (charOf '+') = none ∧ digitValue (charOf 'x') = none ∧
      digitValue (charOf 'X') = none ∧ digitValue 0 = none := by
  decide

theorem digit_space (base : ℕ) (uppercase : Bool) (h : 0 < base ∧ base ≤ 16) (k : ℕ) :
    ((digitAlphabet base uppercase h).digit (deref (List.replicate k (charOf ' ')))).isSome =
      false := by
  have hnone : digitValue (deref (List.replicate k (charOf ' '))) = none := by
    cases k with
    | zero => exact digitValue_none.2.2.2.2.2
    | succ k => exact digitValue_none.1
  rw [Bool.eq_false_iff, ne_eq, digit_isSome_iff, hnone]
  rintro ⟨d, -, hd⟩
  cases hd

/-- What stands behind the prefix: a row of digits, and pad spaces. -/
structure Row (base : ℕ) (uppercase : Bool) (h : 0 < base ∧ base ≤ 16) (body : CString)
    (value : ℕ) : Prop where
  read_eq : (digitAlphabet base uppercase h).read body = some value
  digits : ∀ c ∈ body, ((digitAlphabet base uppercase h).digit c).isSome = true

theorem Row.readDigits {body : CString} {value : ℕ} (hrow : Row base uppercase h body value)
    (k : ℕ) :
    PrintfReading.readDigits (digitAlphabet base uppercase h)
      (body ++ List.replicate k (charOf ' ')) = value :=
  readDigits_append hrow.read_eq hrow.digits (digit_space base uppercase h k)

theorem Row.mem {body : CString} {value : ℕ} (hrow : Row base uppercase h body value) {k : ℕ}
    {c : UInt8} (hc : c ∈ body ++ List.replicate k (charOf ' ')) :
    (∃ d < base, digitValue c = some d) ∨ c = charOf ' ' := by
  obtain hbody | hpad := List.mem_append.mp hc
  · exact Or.inl ((digit_isSome_iff base uppercase h c).mp (hrow.digits c hbody))
  · exact Or.inr (List.eq_of_mem_replicate hpad)

theorem deref_mem (text : CString) : deref text = 0 ∨ deref text ∈ text := by
  cases text with
  | nil => exact Or.inl rfl
  | cons c text => exact Or.inr List.mem_cons_self

theorem Row.skipPrefix {body : CString} {value : ℕ} (hrow : Row base uppercase h body value)
    (k : ℕ) :
    PrintfReading.skipPrefix base (body ++ List.replicate k (charOf ' ')) =
      body ++ List.replicate k (charOf ' ') := by
  have hsecond : ∀ c, c = deref (body ++ List.replicate k (charOf ' ')).tail →
      c = 0 ∨ (∃ d < base, digitValue c = some d) ∨ c = charOf ' ' := by
    rintro c rfl
    obtain hzero | hmem := deref_mem (body ++ List.replicate k (charOf ' ')).tail
    · exact Or.inl hzero
    · exact Or.inr (hrow.mem (List.mem_of_mem_tail hmem))
  have hspecial : ∀ c, c = charOf 'x' ∨ c = charOf 'X' → ∀ d, digitValue c ≠ some d := by
    rintro c (rfl | rfl) d hd
    · rw [digitValue_none.2.2.2.1] at hd
      cases hd
    · rw [digitValue_none.2.2.2.2.1] at hd
      cases hd
  refine if_neg ?_
  rintro ⟨-, ⟨-, hx⟩ | ⟨hbase, hb⟩⟩
  · obtain hzero | ⟨d, -, hd⟩ | hspace := hsecond _ rfl
    · rw [hzero] at hx
      revert hx
      decide
    · exact hspecial _ hx d hd
    · rw [hspace] at hx
      revert hx
      decide
  · obtain hzero | ⟨d, hlt, hd⟩ | hspace := hsecond _ rfl
    · rw [hzero] at hb
      revert hb
      decide
    · rw [hb, show digitValue (charOf 'b') = some 11 by decide] at hd
      obtain rfl := Option.some.inj hd
      omega
    · rw [hspace] at hb
      revert hb
      decide

theorem skipPrefix_alternative (base : ℕ) (uppercase : Bool) {text : CString}
    (htext : PrintfReading.skipPrefix base text = text) :
    PrintfReading.skipPrefix base (alternativeText base uppercase ++ text) = text := by
  by_cases hhex : base = 16
  · subst hhex
    cases uppercase with
    | false => exact if_pos ⟨rfl, Or.inl ⟨rfl, Or.inl rfl⟩⟩
    | true => exact if_pos ⟨rfl, Or.inl ⟨rfl, Or.inr rfl⟩⟩
  · by_cases hbinary : base = 2
    · subst hbinary
      exact if_pos ⟨rfl, Or.inr ⟨rfl, rfl⟩⟩
    · rw [alternativeText, if_neg hhex, if_neg hbinary]
      exact htext

theorem Row.first {body : CString} {value : ℕ} (hrow : Row base uppercase h body value)
    (hne : body ≠ []) (k : ℕ) {pre : CString}
    (hpre : pre = [] ∨ pre = alternativeText base uppercase) :
    ∃ d, digitValue (deref (pre ++ (body ++ List.replicate k (charOf ' ')))) = some d := by
  have hfirst : ∃ d, digitValue (deref (body ++ List.replicate k (charOf ' '))) = some d := by
    cases body with
    | nil => exact absurd rfl hne
    | cons c body =>
      obtain ⟨d, -, hd⟩ := (digit_isSome_iff base uppercase h c).mp
        (hrow.digits c List.mem_cons_self)
      exact ⟨d, hd⟩
  obtain rfl | rfl := hpre
  · exact hfirst
  · have hzero : digitValue (charOf '0') = some 0 := by decide
    unfold alternativeText
    by_cases hhex : base = 16
    · rw [if_pos hhex]
      exact ⟨0, hzero⟩
    · by_cases hbinary : base = 2
      · rw [if_neg hhex, if_pos hbinary]
        exact ⟨0, hzero⟩
      · rw [if_neg hhex, if_neg hbinary]
        exact hfirst

theorem readSign_digit {text : CString} {d : ℕ} (hd : digitValue (deref text) = some d) :
    readSign text = (false, text) ∧ skipSpaces text = text := by
  have hne : ∀ c, digitValue c = none → deref text ≠ c := by
    rintro c hc rfl
    rw [hc] at hd
    cases hd
  refine ⟨?_, skipSpaces_eq (hne _ digitValue_none.1)⟩
  rw [readSign, if_neg (hne _ digitValue_none.2.1), if_neg (hne _ digitValue_none.2.2.1)]

theorem readSign_signText (negative : Bool) (flags : PrintfFlags) (j : ℕ) {body : CString} {d : ℕ}
    (hd : digitValue (deref body) = some d) :
    readSign (skipSpaces (List.replicate j (charOf ' ') ++ (signText negative flags ++ body))) =
      (negative, body) := by
  obtain ⟨hsign, hskip⟩ := readSign_digit hd
  have hstop (c : UInt8) (hc : c ≠ charOf ' ') : skipSpaces ([c] ++ body) = [c] ++ body :=
    skipSpaces_eq hc
  rw [skipSpaces_replicate]
  unfold signText
  cases negative with
  | true =>
    rw [if_pos rfl, hstop (charOf '-') (by decide)]
    rfl
  | false =>
    rw [if_neg Bool.false_ne_true]
    split_ifs with hplus hspace
    · rw [hstop (charOf '+') (by decide)]
      rfl
    · rw [← hsign]
      exact congrArg readSign ((skipSpaces_replicate 1 body).trans hskip)
    · rw [List.nil_append, hskip, hsign]

/-- The parts in the order in which a directive prints them. -/
theorem readInteger_parts {body : CString} {value : ℕ} (hrow : Row base uppercase h body value)
    (negative : Bool) (flags : PrintfFlags) (j k : ℕ) {pre : CString}
    (hpre : pre = [] ∨ pre = alternativeText base uppercase) (hempty : body = [] → pre = []) :
    readInteger (digitAlphabet base uppercase h) (List.replicate j (charOf ' ') ++
      (signText negative flags ++ (pre ++ (body ++ List.replicate k (charOf ' '))))) =
        if negative then -(value : ℤ) else value := by
  have hstrip : PrintfReading.skipPrefix base (pre ++ (body ++ List.replicate k (charOf ' '))) =
      body ++ List.replicate k (charOf ' ') := by
    obtain rfl | rfl := hpre
    · exact hrow.skipPrefix k
    · exact skipPrefix_alternative base uppercase (hrow.skipPrefix k)
  have hvalue : readDigits (digitAlphabet base uppercase h)
      (PrintfReading.skipPrefix (digitAlphabet base uppercase h).base
        (pre ++ (body ++ List.replicate k (charOf ' ')))) = value := by
    change readDigits _ (PrintfReading.skipPrefix base _) = value
    rw [hstrip, hrow.readDigits]
  -- without a sign character the digits follow, or nothing but spaces
  have hplain : readSign (skipSpaces (pre ++ (body ++ List.replicate k (charOf ' ')))) =
      (false, pre ++ (body ++ List.replicate k (charOf ' '))) ∨
        (value = 0 ∧
          readSign (skipSpaces (pre ++ (body ++ List.replicate k (charOf ' ')))) = (false, [])) := by
    by_cases hne : body = []
    · have hnone := hempty hne
      have hskip := skipSpaces_replicate k []
      have hzero := hrow.read_eq
      rw [List.append_nil] at hskip
      rw [hne] at hzero
      refine Or.inr ⟨(Option.some.inj hzero).symm, ?_⟩
      rw [hnone, hne, List.nil_append, List.nil_append, hskip]
      rfl
    · obtain ⟨d, hd⟩ := hrow.first hne k hpre
      obtain ⟨hsign, hskip⟩ := readSign_digit hd
      exact Or.inl (by rw [hskip, hsign])
  have hunsigned : ∀ text, skipSpaces text =
      skipSpaces (pre ++ (body ++ List.replicate k (charOf ' '))) →
        readInteger (digitAlphabet base uppercase h) text = value := by
    intro text htext
    rw [readInteger, htext]
    obtain hsign | ⟨hzero, hsign⟩ := hplain
    · rw [hsign, hvalue]
      rfl
    · rw [hsign, hzero]
      rfl
  unfold signText
  cases negative with
  | true =>
    rw [readInteger, skipSpaces_replicate, if_pos rfl]
    have hskip : skipSpaces ([charOf '-'] ++ (pre ++ (body ++ List.replicate k (charOf ' ')))) =
        [charOf '-'] ++ (pre ++ (body ++ List.replicate k (charOf ' '))) :=
      skipSpaces_eq (show charOf '-' ≠ charOf ' ' by decide)
    have hsign : readSign ([charOf '-'] ++ (pre ++ (body ++ List.replicate k (charOf ' ')))) =
        (true, pre ++ (body ++ List.replicate k (charOf ' '))) := if_pos rfl
    rw [hskip, hsign, hvalue]
  | false =>
    rw [if_neg Bool.false_ne_true, if_neg Bool.false_ne_true]
    split_ifs with hplus hspace
    · have hskip : skipSpaces ([charOf '+'] ++ (pre ++ (body ++ List.replicate k (charOf ' ')))) =
          [charOf '+'] ++ (pre ++ (body ++ List.replicate k (charOf ' '))) :=
        skipSpaces_eq (show charOf '+' ≠ charOf ' ' by decide)
      have hsign : readSign ([charOf '+'] ++ (pre ++ (body ++ List.replicate k (charOf ' ')))) =
          (false, pre ++ (body ++ List.replicate k (charOf ' '))) := rfl
      rw [readInteger, skipSpaces_replicate, hskip, hsign, hvalue]
      rfl
    · refine hunsigned _ ?_
      rw [skipSpaces_replicate]
      exact skipSpaces_replicate 1 _
    · refine hunsigned _ ?_
      rw [skipSpaces_replicate]
      rfl

theorem row_digits (base : ℕ) (uppercase : Bool) (h : 0 < base ∧ base ≤ 16) (hbase : 1 < base)
    (k value : ℕ) :
    Row base uppercase h
      (List.replicate k (charOf '0') ++ (digitChars base uppercase value).reverse) value := by
  have hzero : charOf '0' = (digitAlphabet base uppercase h).symbol 0 := by
    cases uppercase <;> rfl
  constructor
  · rw [hzero, Alphabet.read, Alphabet.readFrom_append, Alphabet.readFrom_zeros, Option.bind_some,
      Nat.zero_mul]
    exact (Alphabet.readFrom_digits _ hbase 0 value).trans (by rw [Nat.zero_mul, Nat.zero_add])
  · intro c hc
    rw [digit_isSome_iff]
    obtain hzeros | hdigits := List.mem_append.mp hc
    · rw [List.eq_of_mem_replicate hzeros]
      exact ⟨0, h.1, by decide⟩
    · rw [List.mem_reverse, digitChars, List.mem_map] at hdigits
      obtain ⟨d, hd, rfl⟩ := hdigits
      have hlt := Nat.digits_lt_base hbase hd
      exact ⟨d, hlt, digitValue_digitChar d (hlt.trans_le h.2) uppercase⟩

theorem standardDigits_row (value base precision : ℕ) (flags : PrintfFlags) (z : ℕ) :
    ∃ k, List.replicate z (charOf '0') ++ standardDigits value base precision flags =
      List.replicate k (charOf '0') ++ (digitChars base flags.uppercase value).reverse := by
  unfold standardDigits
  dsimp only
  split_ifs
  · refine ⟨z + 1 + precisionZeros precision flags
      (digitChars base flags.uppercase value).reverse.length, ?_⟩
    simp only [List.replicate_add, List.append_assoc]
    rfl
  · refine ⟨z + precisionZeros precision flags
      (digitChars base flags.uppercase value).reverse.length, ?_⟩
    rw [List.replicate_add, List.append_assoc]

theorem readInteger_standardText (value : ℕ) (negative : Bool) (base precision width : ℕ)
    (flags : PrintfFlags) (h : 0 < base ∧ base ≤ 16) (hbase : 1 < base) :
    readInteger (digitAlphabet base flags.uppercase h)
      (standardText value negative base precision width flags) =
        if negative then -(value : ℤ) else value := by
  have hall : ∀ i j, readInteger (digitAlphabet base flags.uppercase h)
      (List.replicate i (charOf ' ') ++ (standardChars value negative base precision width flags ++
        List.replicate j (charOf ' '))) = if negative then -(value : ℤ) else value := by
    intro i j
    rw [standardChars]
    generalize hpre : (if flags.hash = true ∧ value ≠ 0 then alternativeText base flags.uppercase
      else []) = pre
    obtain ⟨k, hk⟩ := standardDigits_row value base precision flags (widthZeros width flags
      (signText negative flags ++ pre).length (standardDigits value base precision flags).length)
    have hrow := row_digits base flags.uppercase h hbase k value
    have hcases : pre = [] ∨ pre = alternativeText base flags.uppercase := by
      rw [← hpre]
      split_ifs
      · exact Or.inr rfl
      · exact Or.inl rfl
    have hempty : List.replicate k (charOf '0') ++
        (digitChars base flags.uppercase value).reverse = [] → pre = [] := by
      intro hnil
      rw [hnil] at hrow
      have hzero : value = 0 := (Option.some.inj hrow.read_eq).symm
      rw [← hpre, if_neg fun hand => hand.2 hzero]
    have hread := readInteger_parts hrow negative flags i j hcases hempty
    rw [← hk] at hread
    simpa only [List.append_assoc] using hread
  rw [standardText]
  by_cases hleft : flags.left = true
  · rw [if_pos hleft]
    simpa only [List.replicate_zero, List.nil_append] using hall 0 _
  · rw [if_neg hleft]
    simpa only [List.replicate_zero, List.append_nil] using hall _ 0

variable {F : Type} {fp : FloatingPoint F} {pos : UInt32} {c : UInt8} {s : Specifier F}

theorem numericBase_bounds (c : UInt8) :
    (0 < numericBase c ∧ numericBase c ≤ 16) ∧ 1 < numericBase c := by
  obtain hbase | hbase | hbase | hbase := numericBase_mem c <;> rw [hbase] <;> decide

def readSpecifier (c : UInt8) (text : CString) : ℤ :=
  readInteger (digitAlphabet (numericBase c) (c = charOf 'X') (numericBase_bounds c).1) text

theorem standardFlags_uppercase (c : UInt8) (flags : PrintfFlags) :
    (standardFlags c flags).uppercase = if c = charOf 'X' then true else flags.uppercase := by
  rw [standardFlags, integerFlags_eq]
  split_ifs <;> rfl

theorem readSpecifier_standardDirective {fields : Fields} {args : List (VaArg F)}
    (hs : fields.apply [] args = .ok s) (v : ℤ) : readSpecifier c (standardDirective c s v) = v := by
  obtain ⟨t, ht, heq⟩ := apply_unsized hs
  have hcase : (standardFlags c s.flags).uppercase = decide (c = charOf 'X') := by
    have hlower : s.flags.uppercase = false := by
      rw [heq]
      cases fields.length <;> exact ht.uppercase
    rw [standardFlags_uppercase, hlower]
    split_ifs with hX <;> simp [hX]
  obtain ⟨hrange, hbase⟩ := numericBase_bounds c
  have hread := readInteger_standardText v.natAbs (decide (v < 0)) (numericBase c)
    s.precision.toNat s.width.toNat (standardFlags c s.flags) hrange hbase
  rw [hcase] at hread
  rw [readSpecifier, standardDirective, hread]
  split_ifs with hneg
  · have hlt := of_decide_eq_true hneg
    omega
  · have hge : ¬ v < 0 := fun hlt => hneg (decide_eq_true hlt)
    omega

theorem forall_digitChar {P : UInt8 → Prop} (hP : ∀ d < 16, ∀ uppercase, P (digitChar uppercase d))
    {base : ℕ} (hbase : 1 < base) (hle : base ≤ 16) (uppercase : Bool) (value : ℕ) :
    ∀ c ∈ digitChars base uppercase value, P c := by
  intro c hc
  obtain ⟨d, hd, rfl⟩ := List.mem_map.mp hc
  exact hP d ((Nat.digits_lt_base hbase hd).trans_le hle) uppercase

theorem nonzero_standardText (value : ℕ) (negative : Bool) {base : ℕ} (hbase : 1 < base)
    (hle : base ≤ 16) (precision width : ℕ) (flags : PrintfFlags) :
    ∀ c ∈ standardText value negative base precision width flags, c ≠ 0 := by
  have hzeros (n : ℕ) : ∀ c ∈ List.replicate n (charOf '0'), c ≠ 0 :=
    List.forall_mem_replicate.mpr (Or.inr (by decide))
  have hspaces (n : ℕ) : ∀ c ∈ List.replicate n (charOf ' '), c ≠ 0 :=
    List.forall_mem_replicate.mpr (Or.inr (by decide))
  have hdigits := forall_digitChar (P := (· ≠ 0)) (by decide) hbase hle flags.uppercase value
  have hlead : ∀ c ∈ signText negative flags ++
      if flags.hash ∧ value ≠ 0 then alternativeText base flags.uppercase else [], c ≠ 0 := by
    have hsign : 0 ∉ signText negative flags := by
      unfold signText
      split_ifs <;> decide
    have halternative : 0 ∉ if flags.hash ∧ value ≠ 0 then alternativeText base flags.uppercase
        else [] := by
      unfold alternativeText
      split_ifs <;> decide
    exact List.forall_mem_append.mpr
      ⟨fun c hc h => hsign (h ▸ hc), fun c hc h => halternative (h ▸ hc)⟩
  have hall : ∀ c ∈ standardDigits value base precision flags, c ≠ 0 := by
    have hbody (n : ℕ) : ∀ c ∈ List.replicate n (charOf '0') ++
        (digitChars base flags.uppercase value).reverse, c ≠ 0 :=
      List.forall_mem_append.mpr
        ⟨hzeros n, fun c hc => hdigits c (List.mem_reverse.mp hc)⟩
    unfold standardDigits
    dsimp only
    split_ifs
    · exact List.forall_mem_cons.mpr ⟨by decide, hbody _⟩
    · exact hbody _
  have hchars : ∀ c ∈ standardChars value negative base precision width flags, c ≠ 0 :=
    List.forall_mem_append.mpr
      ⟨List.forall_mem_append.mpr ⟨hlead, hzeros _⟩, hall⟩
  unfold standardText
  dsimp only
  split_ifs
  · exact List.forall_mem_append.mpr ⟨hchars, hspaces _⟩
  · exact List.forall_mem_append.mpr ⟨hspaces _, hchars⟩

/-- Where the text fits the buffer of 32 bytes and the size has room for it, the string that
a call leaves in the buffer reads as the integer, a binary zero with `#` and a precision
apart. -/
theorem vsnprintf_reads_back {fields : Fields} {closed : fields.Closed [c]}
    (hc : c ∈ integerSpecifiers) {args rest : List (VaArg F)}
    (hs : fields.apply [] args = .ok s) {v : ℤ} (harg : integerArgument c s = .ok (v, rest))
    (hbinary : ¬ BinaryZero c s v) (hfits : Fits c s v) {m : UInt32}
    (hroom : (standardDirective c s v).length < usableSize m) (cells : Buffer UInt8) (p : ℕ) :
    ∃ r text, vsnprintf fp cells (some p) m (Item.directive fields c closed).text args =
        some (.ok r) ∧
      r.output.cells.cells p (text.length + 1) = (text ++ [0]).map some ∧ 0 ∉ text ∧
      readSpecifier c text = v := by
  have hmax : usableSize m ≤ 2^31 - 1 := Nat.min_le_right _ _
  have hm : m ≠ 0 := by
    rintro rfl
    exact Nat.not_lt_zero _ hroom
  have hprint : (Item.directive fields c closed).print fp 0 args =
      .ok ⟨standardDirective c s v, [], rest⟩ := print_integer hc hs harg hbinary hfits
  rw [← print_one] at hprint
  obtain ⟨r, hr, -, -, hcells⟩ := vsnprintf_writes hprint (by dsimp only; omega) cells p hm
  rw [text_one] at hr
  obtain ⟨hrange, hbase⟩ := numericBase_bounds c
  refine ⟨r, standardDirective c s v, hr, ?_, ?_, readSpecifier_standardDirective hs v⟩
  · rw [hcells, List.take_of_length_le (by dsimp only; omega), ← Buffer.cells_fill,
      List.length_append, List.length_singleton]
  · intro hmem
    exact nonzero_standardText _ _ hbase hrange.2 _ _ _ 0 hmem rfl

theorem vsnprintf_reads_back_signed :
    ∃ r text, vsnprintf noFloat Buffer.empty (some 0) 6
        (Item.directive signedFields (charOf 'd') signed_closed).text [.int 42] = some (.ok r) ∧
      r.output.cells.cells 0 (text.length + 1) = (text ++ [0]).map some ∧ 0 ∉ text ∧
      readSpecifier (charOf 'd') text = 42 :=
  vsnprintf_reads_back (by decide) signed_apply signed_argument (by unfold BinaryZero; decide)
    signed_fits (by decide) Buffer.empty 0

end BleFirmware.PrintfReading
