import BleFirmware.Base.Digits
import BleFirmware.PrintfCalls
import BleFirmware.PrintfStandard

/-!
# Integer directives

A directive takes an integer of the type that its length and its specifier name. Where
the text fits the buffer of 32 bytes, it is printed as the C standard has it, a binary
zero with `#` and a precision apart.
-/

namespace BleFirmware.PrintfDirective
open PrintfSyntax PrintfInteger PrintfStandard PrintfCalls

variable {F : Type} {fp : FloatingPoint F} {pos : UInt32} {c : UInt8} {n : Length}
  {s t : Specifier F}

/-- An unsigned number has no sign. -/
def standardFlags (c : UInt8) (flags : PrintfFlags) : PrintfFlags :=
  let flags := integerFlags c flags
  if flags.signed then flags else { flags with plus := false, space := false }

def integerArgument (c : UInt8) (s : Specifier F) : Except PrintfFault (ℤ × List (VaArg F)) :=
  let flags := standardFlags c s.flags
  if flags.signed then signedArgument flags s.args
  else (unsignedArgument flags s.args).map fun r => ((r.1.toNat : ℤ), r.2)

theorem signed_natAbs_lt {flags : PrintfFlags} {args rest : List (VaArg F)} {v : ℤ}
    (h : signedArgument flags args = .ok (v, rest)) : v.natAbs < 2^64 := by
  have h64 : ∀ w : UInt64, w.toInt64.toInt.natAbs < 2^64 := fun w => by
    have hle := w.toInt64.le_toInt
    have hlt := w.toInt64.toInt_lt
    omega
  have h32 : ∀ w : UInt32, w.toInt32.toInt.natAbs < 2^64 := fun w => by
    have hle := w.toInt32.le_toInt
    have hlt := w.toInt32.toInt_lt
    omega
  have h16 : ∀ w : UInt16, w.toInt16.toInt.natAbs < 2^64 := fun w => by
    have hle := w.toInt16.le_toInt
    have hlt := w.toInt16.toInt_lt
    omega
  have h8 : ∀ w : UInt8, w.toInt8.toInt.natAbs < 2^64 := fun w => by
    have hle := w.toInt8.le_toInt
    have hlt := w.toInt8.toInt_lt
    omega
  simp only [signedArgument, bind, Except.bind] at h
  split_ifs at h
  all_goals
    split at h
    · cases h
    · obtain ⟨rfl, -⟩ := Prod.mk.inj (Except.ok.inj h)
      first | exact h64 _ | exact h32 _ | exact h16 _ | exact h8 _

theorem absForPrinting_toNat {v : ℤ} (h : v.natAbs < 2^64) :
    (absForPrinting v).toNat = v.natAbs :=
  Nat.mod_eq_of_lt h

theorem numericBase_mem (c : UInt8) :
    numericBase c = 2 ∨ numericBase c = 8 ∨ numericBase c = 10 ∨ numericBase c = 16 := by
  unfold numericBase
  split_ifs <;> simp

theorem signed_iff (h : Unsized t) (n : Length) (c : UInt8) :
    (integerFlags c (n.apply t.flags)).signed = true ↔ c = charOf 'd' ∨ c = charOf 'i' := by
  have hsigned : (n.apply t.flags).signed = false := by
    cases n <;> exact h.signed
  rw [integerFlags_eq]
  simp [hsigned]

theorem numericBase_signed (h : c = charOf 'd' ∨ c = charOf 'i') : numericBase c = 10 := by
  obtain rfl | rfl := h <;> decide

theorem standardFlags_zeropad (c : UInt8) (flags : PrintfFlags) :
    (standardFlags c flags).zeropad = if flags.precision then false else flags.zeropad := by
  rw [standardFlags, integerFlags_eq]
  split_ifs <;> rfl

theorem standardFlags_signed (c : UInt8) (flags : PrintfFlags) :
    (standardFlags c flags).signed = (integerFlags c flags).signed := by
  unfold standardFlags
  dsimp only
  split_ifs <;> rfl

theorem standardFlags_precision (c : UInt8) (flags : PrintfFlags) :
    (standardFlags c flags).precision = flags.precision := by
  rw [standardFlags, integerFlags_eq]
  split_ifs <;> rfl

theorem standardFlags_hash (c : UInt8) (flags : PrintfFlags) :
    (standardFlags c flags).hash = if numericBase c = 10 then false else flags.hash := by
  rw [standardFlags, integerFlags_eq]
  split_ifs <;> rfl

theorem regular_directive (h : Unsized t) (n : Length) (c : UInt8) (negative : Bool)
    (hnegative : negative = true → c = charOf 'd' ∨ c = charOf 'i') :
    Regular negative (numericBase c) t.precision (standardFlags c (n.apply t.flags)) := by
  have hprecision : (n.apply t.flags).precision = t.flags.precision := by cases n <;> rfl
  have hpointer : (n.apply t.flags).pointer = false := by cases n <;> exact h.pointer
  constructor
  · exact numericBase_mem c
  · intro hnone
    rw [standardFlags_precision, hprecision] at hnone
    exact h.precision_eq hnone
  · intro hsome
    rw [standardFlags_precision] at hsome
    rw [standardFlags_zeropad, if_pos hsome]
  · intro hhash hten
    rw [standardFlags_hash, if_pos hten] at hhash
    exact Bool.false_ne_true hhash
  · intro hhash
    -- a signed number is a decimal one, which has no alternative form
    have hunsigned : ¬ (c = charOf 'd' ∨ c = charOf 'i') := by
      intro hs
      rw [standardFlags_hash, if_pos (numericBase_signed hs)] at hhash
      exact Bool.false_ne_true hhash
    have hpos : negative = false := Bool.eq_false_iff.mpr (mt hnegative hunsigned)
    have hno := mt (signed_iff h n c).mp hunsigned
    simp only [standardFlags, if_neg hno, signText, hpos]
    rfl
  · rw [standardFlags, integerFlags_eq]
    split_ifs <;> exact hpointer

def standardDirective (c : UInt8) (s : Specifier F) (v : ℤ) : CString :=
  standardText v.natAbs (decide (v < 0)) (numericBase c) s.precision.toNat s.width.toNat
    (standardFlags c s.flags)

/-- All but the pad spaces fits into the buffer of `print_integer`. -/
def Fits (c : UInt8) (s : Specifier F) (v : ℤ) : Prop :=
  (standardChars v.natAbs (decide (v < 0)) (numericBase c) s.precision.toNat s.width.toNat
    (standardFlags c s.flags)).length ≤ printfIntegerBufferSize

def BinaryZero (c : UInt8) (s : Specifier F) (v : ℤ) : Prop :=
  v = 0 ∧ c = charOf 'b' ∧ s.flags.hash = true ∧ s.flags.precision = true

theorem base_two (h : numericBase c = 2) : c = charOf 'b' := by
  unfold numericBase at h
  split_ifs at h with hhex hoctal hbinary
  · exact absurd h (by decide)
  · exact absurd h (by decide)
  · exact hbinary
  · exact absurd h (by decide)

theorem integerConversion_eq (c : UInt8) (s : Specifier F) :
    integerConversion c s = (integerArgument c s).map fun r =>
      (integerText (absForPrinting r.1) (decide (r.1 < 0)) (numericBase c) s.precision s.width
        (standardFlags c s.flags), r.2) := by
  unfold integerConversion integerArgument standardFlags
  dsimp only
  by_cases hsigned : (integerFlags c s.flags).signed = true
  · simp only [if_pos hsigned, bind, Except.bind]
    cases signedArgument (integerFlags c s.flags) s.args <;> rfl
  · have hno : ({ integerFlags c s.flags with plus := false, space := false } :
        PrintfFlags).signed = false := Bool.eq_false_iff.mpr hsigned
    simp only [if_neg hsigned, hno, Bool.false_eq_true, if_false, bind, Except.bind]
    cases unsignedArgument { integerFlags c s.flags with plus := false, space := false } s.args with
    | error e => rfl
    | ok r =>
      have habs : absForPrinting (r.1.toNat : ℤ) = r.1 := UInt64.ofNat_toNat
      have hpos : ¬ (r.1.toNat : ℤ) < 0 := by omega
      simp [Except.map, habs, hpos]

theorem integerArgument_spec (h : Unsized t) {n : Length} {v : ℤ} {rest : List (VaArg F)}
    (harg : integerArgument c { t with flags := n.apply t.flags } = .ok (v, rest)) :
    v.natAbs < 2^64 ∧ (v < 0 → c = charOf 'd' ∨ c = charOf 'i') := by
  unfold integerArgument at harg
  dsimp only at harg
  by_cases hsigned : (standardFlags c (n.apply t.flags)).signed = true
  · rw [if_pos hsigned] at harg
    refine ⟨signed_natAbs_lt harg, fun _ => (signed_iff h n c).mp ?_⟩
    rwa [standardFlags_signed] at hsigned
  · rw [if_neg hsigned] at harg
    cases hu : unsignedArgument (standardFlags c (n.apply t.flags)) t.args with
    | error e =>
      rw [hu] at harg
      cases harg
    | ok r =>
      rw [hu] at harg
      obtain ⟨rfl, -⟩ := Prod.mk.inj (Except.ok.inj harg)
      have hlt := r.1.toNat_lt
      exact ⟨by omega, fun hneg => absurd hneg (by omega)⟩

theorem conversion_integer (hc : c ∈ integerSpecifiers) (h : Unsized t)
    (hs : s = { t with flags := n.apply t.flags }) {v : ℤ} {rest : List (VaArg F)}
    (harg : integerArgument c s = .ok (v, rest)) (hbinary : ¬ BinaryZero c s v)
    (hfits : Fits c s v) :
    conversion fp pos c s = .ok ⟨standardDirective c s v, [], rest⟩ := by
  subst hs
  obtain ⟨hlt, hneg⟩ := integerArgument_spec h harg
  have habs := absForPrinting_toNat hlt
  have hregular := regular_directive h n c (decide (v < 0)) fun hv =>
    hneg (of_decide_eq_true hv)
  have hzero : ¬ (absForPrinting v = 0 ∧ numericBase c = 2 ∧
      (standardFlags c (n.apply t.flags)).hash = true ∧
        (standardFlags c (n.apply t.flags)).precision = true) := by
    rintro ⟨hz, hbase, hhash, hprecision⟩
    rw [standardFlags_precision] at hprecision
    have hv : v.natAbs = 0 := by rw [← habs, hz]; rfl
    rw [standardFlags_hash, hbase, if_neg (by decide)] at hhash
    exact hbinary ⟨Int.natAbs_eq_zero.mp hv, base_two hbase, hhash, hprecision⟩
  have htext := integerText_standard hregular t.width hzero (by rw [habs]; exact hfits)
  rw [conversion, if_pos hc, integerConversion_eq, harg]
  simp only [Except.map, bind, Except.bind]
  rw [htext, habs]
  rfl

theorem print_integer {fields : Fields} {closed : fields.Closed [c]}
    (hc : c ∈ integerSpecifiers) {args rest : List (VaArg F)}
    (hs : fields.apply [] args = .ok s) {v : ℤ} (harg : integerArgument c s = .ok (v, rest))
    (hbinary : ¬ BinaryZero c s v) (hfits : Fits c s v) :
    (Item.directive fields c closed).print fp pos args =
      .ok ⟨standardDirective c s v, [], rest⟩ := by
  obtain ⟨t, ht, heq⟩ := apply_unsized hs
  rw [Item.print, hs]
  exact conversion_integer hc ht heq harg hbinary hfits

theorem print_one (i : Item) (args : List (VaArg F)) :
    Format.print fp pos ⟨[i], none⟩ args = i.print fp pos args := by
  simp only [Format.print, printItems, bind, Except.bind]
  cases i.print fp pos args with
  | error e => rfl
  | ok p => simp [printRest]

theorem text_one (i : Item) : Format.text ⟨[i], none⟩ = i.text := by
  simp [Format.text, Format.itemsText, Format.restText]

/-- The buffer gets the integer as the C standard has it, whenever that fits into the buffer
of `print_integer`, cut to the size of the call. The one exception is a binary zero with a
precision, which keeps its prefix. -/
theorem vsnprintf_integer {fields : Fields} {closed : fields.Closed [c]}
    (hc : c ∈ integerSpecifiers) {args rest : List (VaArg F)}
    (hs : fields.apply [] args = .ok s) {v : ℤ} (harg : integerArgument c s = .ok (v, rest))
    (hbinary : ¬ BinaryZero c s v) (hfits : Fits c s v)
    (hlen : (standardDirective c s v).length < 2^31) (cells : Buffer UInt8) (p : ℕ) {m : UInt32}
    (hm : m ≠ 0) :
    ∃ r, vsnprintf fp cells (some p) m (Item.directive fields c closed).text args = some (.ok r) ∧
      r.result.toInt = (standardDirective c s v).length ∧ r.stored = [] ∧
      r.output.cells = cells.fill p ((standardDirective c s v).take (usableSize m - 1) ++ [0]) := by
  have hprint : (Item.directive fields c closed).print fp 0 args =
      .ok ⟨standardDirective c s v, [], rest⟩ := print_integer hc hs harg hbinary hfits
  rw [← print_one] at hprint
  obtain ⟨r, hr, hresult, hstored, hcells⟩ := vsnprintf_writes hprint hlen cells p hm
  rw [text_one] at hr
  exact ⟨r, hr, hresult, hstored, hcells⟩

def signedFields : Fields := ⟨[.plus], .number [charOf '5'], .omitted, .omitted⟩

def signedSpecifier : Specifier Unit := ⟨{ plus := true }, 5, 0, [], [.int 42]⟩

theorem signed_closed : signedFields.Closed [charOf 'd'] := by decide

theorem signed_apply : signedFields.apply [] [.int 42] = .ok signedSpecifier := rfl

theorem signed_argument : integerArgument (charOf 'd') signedSpecifier = .ok (42, []) := rfl

theorem signed_fits : Fits (charOf 'd') signedSpecifier 42 := by
  unfold Fits
  decide

theorem vsnprintf_integer_signed :
    ∃ r, vsnprintf noFloat Buffer.empty (some 0) 5
        (Item.directive signedFields (charOf 'd') signed_closed).text [.int 42] = some (.ok r) ∧
      r.result.toInt = (standardDirective (charOf 'd') signedSpecifier 42).length ∧ r.stored = [] ∧
      r.output.cells = Buffer.empty.fill 0
        ((standardDirective (charOf 'd') signedSpecifier 42).take (usableSize 5 - 1) ++ [0]) :=
  vsnprintf_integer (by decide) signed_apply signed_argument (by unfold BinaryZero; decide)
    signed_fits (by decide) Buffer.empty 0 (by decide)

end BleFirmware.PrintfDirective
