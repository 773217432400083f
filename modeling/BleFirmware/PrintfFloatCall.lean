import BleFirmware.PrintfFloatReading
import BleFirmware.PrintfZeros

/-!
# Calls with floating point directives

The loop prints a floating point number as `print_floating_point` does. So what is known of
its texts holds of the strings that a call leaves in a buffer.
-/

namespace BleFirmware.PrintfFloatCall
open OutputGadget PrintfSyntax PrintfInteger PrintfStandard PrintfCalls PrintfDirective
open PrintfDecimal PrintfReading PrintfFloatReading PrintfZeros

variable {F : Type} {fa : FloatArithmetic F} {value : F} {precision width : UInt32}
  {flags : PrintfFlags} {preferExponential : Bool} {e : Exponential} {z : ℕ} {c : UInt8}
  {s : Specifier F} {pos : UInt32}

/-- The texts of `print_floating_point`. A call that reads the table behind its end has none. -/
def libraryFloat (fa : FloatArithmetic F) : FloatingPoint F :=
  fun value precision width flags preferExponential =>
    (floatText fa value precision width flags preferExponential).getD []

theorem printFloatingPoint_library {g : OutputGadget}
    (h : (printFloatingPoint fa g value precision width flags preferExponential).isSome) :
    printFloatingPoint fa g value precision width flags preferExponential =
      some (g.puts (libraryFloat fa value precision width flags preferExponential)) := by
  rw [printFloatingPoint_eq, Option.isSome_map] at h
  obtain ⟨text, htext⟩ := Option.isSome_iff_exists.mp h
  rw [printFloatingPoint_eq, libraryFloat, htext]
  rfl

def floatFlags (c : UInt8) (flags : PrintfFlags) : PrintfFlags :=
  if c = charOf 'f' ∨ c = charOf 'F' then
    if c = charOf 'F' then { flags with uppercase := true } else flags
  else
    let flags := if c = charOf 'g' ∨ c = charOf 'G' then { flags with adaptExp := true } else flags
    if c = charOf 'E' ∨ c = charOf 'G' then { flags with uppercase := true } else flags

def prefersExponential (c : UInt8) : Bool := ¬ (c = charOf 'f' ∨ c = charOf 'F')

def floatArgument (s : Specifier F) : Except PrintfFault (F × List (VaArg F)) :=
  vaArg (if s.flags.longDouble then VaArg.longDouble? else VaArg.double?) s.args

theorem floatConversion_eq (fp : FloatingPoint F) (c : UInt8) (s : Specifier F) :
    floatConversion fp c s = (floatArgument s).map fun r =>
      (fp r.1 s.precision s.width (floatFlags c s.flags) (prefersExponential c), r.2) := by
  unfold floatConversion floatFlags prefersExponential floatArgument
  cases vaArg (if s.flags.longDouble then VaArg.longDouble? else VaArg.double?) s.args with
  | error fault => rfl
  | ok r =>
    simp only [bind, Except.bind, Except.map]
    split_ifs <;> simp_all

theorem conversion_float {fp : FloatingPoint F} (hc : c ∈ floatSpecifiers) {rest : List (VaArg F)}
    (harg : floatArgument s = .ok (value, rest)) :
    conversion fp pos c s =
      .ok ⟨fp value s.precision s.width (floatFlags c s.flags) (prefersExponential c), [], rest⟩ := by
  have hall : floatSpecifiers.all (· ∉ integerSpecifiers) = true := by decide
  have hnot : c ∉ integerSpecifiers := of_decide_eq_true (List.all_eq_true.mp hall c hc)
  rw [conversion, if_neg hnot, if_pos hc, floatConversion_eq, harg]
  rfl

theorem noZeros_library (fa : FloatArithmetic F) : NoZeros (libraryFloat fa) := by
  intro value precision width flags preferExponential
  rw [libraryFloat]
  cases htext : floatText fa value precision width flags preferExponential with
  | none => exact List.not_mem_nil
  | some text => exact nonzero_floatText htext

/-- The string that an accepted call leaves in the buffer is as long as the call says exactly
if the size has room for it and no `%c` prints a zero. -/
theorem vsnprintf_strlen_iff (fa : FloatArithmetic F) {f : Format} (hf : 0 ∉ f.text)
    {args : List (VaArg F)} (hargs : Terminated args) {out : Printed F}
    (hprint : f.print (libraryFloat fa) 0 args = .ok out) (hlen : out.text.length < 2^31)
    (cells : Buffer UInt8) (p : ℕ) {n : UInt32} (hn : n ≠ 0) :
    ∃ r text, vsnprintf (libraryFloat fa) cells (some p) n f.text args = some (.ok r) ∧
      StringAt r.output.cells p text ∧
      (r.result.toInt = text.length ↔ r.result.toInt < usableSize n ∧
        ¬ ∃ before i after, f.items = before ++ i :: after ∧
          PrintsZero (args.drop (before.flatMap Item.types).length) i) := by
  obtain ⟨r, hr, hresult, -, hcells⟩ := vsnprintf_writes hprint hlen cells p hn
  have hitems : 0 ∉ Format.itemsText f.items := fun hmem => hf (List.mem_append_left _ hmem)
  have hzero := zero_items (noZeros_library fa) hitems hargs (items_of_print hprint)
  refine ⟨r, _, hr, hcells ▸ stringAt_fill _ _ _, ?_⟩
  have husable : 0 < usableSize n := Nat.lt_min.mpr ⟨toNat_pos hn, by decide⟩
  have hfits : out.text.length < usableSize n ↔ out.text.length ≤ usableSize n - 1 := by omega
  rw [← hzero, hresult, Nat.cast_inj, Nat.cast_lt, hfits]
  exact length_string_iff _ _

def oneCharacter : Format :=
  ⟨[.directive ⟨[], .omitted, .omitted, .omitted⟩ (charOf 'c') (by decide)], none⟩

theorem oneCharacter_prints :
    oneCharacter.print (libraryFloat twelve) 0 [.int 256] = .ok ⟨[0], [], []⟩ := rfl

theorem vsnprintf_strlen_iff_zero :
    ∃ r text, vsnprintf (libraryFloat twelve) Buffer.empty (some 0) 8 oneCharacter.text [.int 256] =
        some (.ok r) ∧
      StringAt r.output.cells 0 text ∧
      (r.result.toInt = text.length ↔ r.result.toInt < usableSize 8 ∧
        ¬ ∃ before i after, oneCharacter.items = before ++ i :: after ∧
          PrintsZero (([.int 256] : List (VaArg Unit)).drop (before.flatMap Item.types).length) i) :=
  vsnprintf_strlen_iff twelve (by decide) (by simp [Terminated]) oneCharacter_prints (by decide)
    Buffer.empty 0 (by decide)

theorem vsnprintf_float {fields : Fields} {closed : fields.Closed [c]} (hc : c ∈ floatSpecifiers)
    {args rest : List (VaArg F)} (hs : fields.apply [] args = .ok s)
    (harg : floatArgument s = .ok (value, rest))
    (hfinite : ¬ (fa.isNan value ∨ fa.belowMin value ∨ fa.aboveMax value))
    (hparts : floatParts fa value s.precision (floatFlags c s.flags) (prefersExponential c) =
      some (e, z)) {m : UInt32}
    (hroom : (libraryFloat fa value s.precision s.width (floatFlags c s.flags)
      (prefersExponential c)).length < usableSize m) (cells : Buffer UInt8) (p : ℕ) :
    ∃ (r : PrintfResult) (buf : IntegerBuffer), buf.chars = List.replicate z (charOf '0') ∧
      let text := exponentialText e s.width (floatFlags c s.flags) buf
      vsnprintf (libraryFloat fa) cells (some p) m (Item.directive fields c closed).text args =
        some (.ok r) ∧
      r.output.cells.cells p (text.length + 1) = (text ++ [0]).map some ∧ 0 ∉ text := by
  have hmax : usableSize m ≤ 2^31 - 1 := Nat.min_le_right _ _
  have hm : m ≠ 0 := by
    rintro rfl
    exact Nat.not_lt_zero _ hroom
  obtain ⟨buf, hbuf, htext⟩ := floatText_parts hfinite hparts s.width
  have hlibrary : libraryFloat fa value s.precision s.width (floatFlags c s.flags)
      (prefersExponential c) = exponentialText e s.width (floatFlags c s.flags) buf := by
    rw [libraryFloat, htext, Option.getD_some]
  rw [hlibrary] at hroom
  have hprint : (Item.directive fields c closed).print (libraryFloat fa) 0 args =
      .ok ⟨exponentialText e s.width (floatFlags c s.flags) buf, [], rest⟩ := by
    rw [Item.print, hs, ← hlibrary]
    exact conversion_float hc harg
  rw [← print_one] at hprint
  obtain ⟨r, hr, -, -, hcells⟩ := vsnprintf_writes hprint (by dsimp only; omega) cells p hm
  rw [text_one] at hr
  refine ⟨r, buf, hbuf, hr, ?_, nonzero_floatText htext⟩
  rw [hcells, List.take_of_length_le (by dsimp only; omega), ← Buffer.cells_fill,
    List.length_append, List.length_singleton]

/-- Where the size has room, a call leaves a string that reads as the number which its
directive prints, exactly if a point is printed, or there are no digits in front of it but
zeros, or no zero stands for a part of the precision. -/
theorem vsnprintf_float_reads_back_iff {fields : Fields} {closed : fields.Closed [c]}
    (hc : c ∈ floatSpecifiers) {args rest : List (VaArg F)} (hs : fields.apply [] args = .ok s)
    (harg : floatArgument s = .ok (value, rest))
    (hfinite : ¬ (fa.isNan value ∨ fa.belowMin value ∨ fa.aboveMax value))
    (hparts : floatParts fa value s.precision (floatFlags c s.flags) (prefersExponential c) =
      some (e, z))
    (hproper : Proper e.components e.precision) (he : e.flooredExp10.natAbs < 2^64)
    (hfits : DecimalFits e.components e.precision
      (decimalPartWidth e s.width (floatFlags c s.flags)) (floatFlags c s.flags) z) {m : UInt32}
    (hroom : (libraryFloat fa value s.precision s.width (floatFlags c s.flags)
      (prefersExponential c)).length < usableSize m) (cells : Buffer UInt8) (p : ℕ) :
    ∃ r text, vsnprintf (libraryFloat fa) cells (some p) m
        (Item.directive fields c closed).text args = some (.ok r) ∧
      r.output.cells.cells p (text.length + 1) = (text ++ [0]).map some ∧ 0 ∉ text ∧
      (readFloat text = exponentialValue e ↔
        pointPrinted e.components.fractional.toNat e.precision (floatFlags c s.flags) = true ∨
          e.components.integral = 0 ∨ z = 0) := by
  obtain ⟨r, buf, hbuf, hr, hcells, hzero⟩ := vsnprintf_float hc hs harg hfinite hparts hroom cells p
  exact ⟨r, _, hr, hcells, hzero, readFloat_exponentialText_iff hproper he hbuf hfits⟩

def twentyFields : Fields := ⟨[], .omitted, .number ("20".toList.map charOf), .omitted⟩

def twentySpecifier : Specifier Unit := ⟨{ precision := true }, 0, 20, [], [.double ()]⟩

theorem twenty_closed : twentyFields.Closed [charOf 'g'] := by decide

theorem twenty_apply : twentyFields.apply [] [.double ()] = .ok twentySpecifier := rfl

theorem twenty_argument : floatArgument twentySpecifier = .ok ((), []) := rfl

/-- The number 12 is printed as 12000. -/
theorem vsnprintf_float_reads_back_iff_twelve :
    ∃ r text, vsnprintf (libraryFloat twelve) Buffer.empty (some 0) 32
        (Item.directive twentyFields (charOf 'g') twenty_closed).text [.double ()] =
          some (.ok r) ∧
      r.output.cells.cells 0 (text.length + 1) = (text ++ [0]).map some ∧ 0 ∉ text ∧
      (readFloat text = exponentialValue ⟨⟨12, 0, false⟩, 15, 1, true⟩ ↔
        pointPrinted 0 15 adaptFlags = true ∨ 12 = 0 ∨ 3 = 0) :=
  vsnprintf_float_reads_back_iff (e := ⟨⟨12, 0, false⟩, 15, 1, true⟩) (z := 3) (by decide)
    twenty_apply twenty_argument (by decide) rfl (by unfold Proper; decide) (by decide)
    (by unfold DecimalFits; decide) (by decide) Buffer.empty 0

end BleFirmware.PrintfFloatCall
