import BleFirmware.PrintfCalls
import BleFirmware.PrintfDecimal

/-!
# Zero characters

`putchar_via_gadget` takes for granted that no character is a zero. In a call that does
not run past the end of its format only `%c` can print one, and then the string that the
call leaves in a buffer ends there.
-/

namespace BleFirmware.PrintfZeros
open OutputGadget PrintfSyntax PrintfInteger PrintfDecimal PrintfCalls IntegerBuffer

variable {F : Type} {buf : IntegerBuffer} {flags : PrintfFlags} {fp : FloatingPoint F}
  {c : UInt8} {pos : UInt32} {s : Specifier F}

theorem nonzero_append {cs ds : CString} (hcs : 0 ∉ cs) (hds : 0 ∉ ds) : 0 ∉ cs ++ ds :=
  fun hmem => (List.mem_append.mp hmem).elim hcs hds

theorem nonzero_replicate (n : ℕ) (hc : c ≠ 0) : 0 ∉ List.replicate n c :=
  fun hmem => hc (List.eq_of_mem_replicate hmem).symm

theorem nonzero_ite {p : Prop} [Decidable p] {cs ds : CString} (hcs : 0 ∉ cs) (hds : 0 ∉ ds) :
    0 ∉ if p then cs else ds := by
  split_ifs
  · exact hcs
  · exact hds

theorem nonzero_fieldText {chars : CString} (h : 0 ∉ chars) (width : ℕ) (flags : PrintfFlags) :
    0 ∉ fieldText chars width flags := by
  have hpad := nonzero_replicate (c := charOf ' ') (width - chars.length) (by decide)
  exact nonzero_append (nonzero_append (nonzero_ite hpad List.not_mem_nil) h)
    (nonzero_ite hpad List.not_mem_nil)

theorem nonzero_push (h : 0 ∉ buf.chars) (hc : c ≠ 0) : 0 ∉ (buf.push c).chars := by
  unfold push
  split
  · exact nonzero_append h fun hmem => hc (List.mem_singleton.mp hmem).symm
  · exact h

theorem nonzero_pop (h : 0 ∉ buf.chars) : 0 ∉ buf.pop.chars :=
  fun hmem => h (List.dropLast_subset _ hmem)

theorem nonzero_empty : 0 ∉ IntegerBuffer.empty.chars := List.not_mem_nil

theorem nonzero_padZeros (limit : UInt32) (n : ℕ) (h : 0 ∉ buf.chars) :
    0 ∉ (padZeros limit n buf).chars := by
  induction n generalizing buf with
  | zero => exact h
  | succ n ih =>
    rw [padZeros]
    split_ifs
    · exact ih (nonzero_push h (by decide))
    · exact h

theorem digitChar_ne_zero (uppercase : Bool) {d : ℕ} (hd : d < 16) : digitChar uppercase d ≠ 0 := by
  have hall : ∀ d < 16, ∀ uppercase, digitChar uppercase d ≠ 0 := by decide
  exact hall d hd uppercase

theorem nonzero_putDigits (base : ℕ) (hbase : 0 < base) (hle : base ≤ 16) (uppercase : Bool)
    (n value : ℕ) (h : 0 ∉ buf.chars) : 0 ∉ (putDigits base uppercase n value buf).chars := by
  induction n generalizing value buf with
  | zero => exact h
  | succ n ih =>
    have hdigit := digitChar_ne_zero uppercase ((Nat.mod_lt value hbase).trans_le hle)
    rw [putDigits]
    split_ifs
    · exact ih _ (nonzero_push h hdigit)
    · exact nonzero_push h hdigit

theorem nonzero_putSign (negative : Bool) (flags : PrintfFlags) (h : 0 ∉ buf.chars) :
    0 ∉ (putSign buf negative flags).chars := by
  unfold putSign
  split_ifs
  · exact nonzero_push h (by decide)
  · exact nonzero_push h (by decide)
  · exact nonzero_push h (by decide)
  · exact h

theorem nonzero_putZeros (precision width : UInt32) (flags : PrintfFlags) (h : 0 ∉ buf.chars) :
    0 ∉ (putZeros buf precision width flags).chars := by
  unfold putZeros
  dsimp only
  split_ifs
  · exact nonzero_padZeros _ _ (nonzero_padZeros _ _ h)
  · exact nonzero_padZeros _ _ h

theorem nonzero_takeBack (unpaddedLen base : ℕ) (h : 0 ∉ buf.chars) :
    0 ∉ (takeBack buf unpaddedLen base).chars := by
  unfold takeBack
  dsimp only
  split_ifs
  · exact nonzero_pop (nonzero_pop h)
  · exact nonzero_pop h
  · exact nonzero_pop h
  · exact h

theorem nonzero_putPrefix (base : ℕ) (flags : PrintfFlags) (h : 0 ∉ buf.chars) :
    0 ∉ (putPrefix buf base flags).chars := by
  have hzero : charOf '0' ≠ 0 := by decide
  unfold putPrefix
  dsimp only
  split_ifs
  · exact nonzero_push (nonzero_push h (by decide)) hzero
  · exact nonzero_push (nonzero_push h (by decide)) hzero
  · exact nonzero_push (nonzero_push h (by decide)) hzero
  · exact nonzero_push h hzero

theorem nonzero_putAlternative (unpaddedLen base : ℕ) (precision width : UInt32)
    (flags : PrintfFlags) (h : 0 ∉ buf.chars) :
    0 ∉ (putAlternative buf unpaddedLen base precision width flags).chars := by
  unfold putAlternative
  dsimp only
  split_ifs
  · exact nonzero_putPrefix _ _ (nonzero_takeBack _ _ h)
  · exact nonzero_putPrefix _ _ h
  · exact h

theorem nonzero_startInteger (value : UInt64) {base : ℕ} (hbase : 0 < base) (hle : base ≤ 16)
    (flags : PrintfFlags) : 0 ∉ (startInteger value base flags).1.chars := by
  unfold startInteger
  split_ifs
  · exact nonzero_push nonzero_empty (by decide)
  · exact nonzero_empty
  · exact nonzero_empty
  · exact nonzero_putDigits base hbase hle _ _ _ nonzero_empty

theorem nonzero_integerText (value : UInt64) (negative : Bool) (base : ℕ) (hbase : 0 < base)
    (hle : base ≤ 16) (precision width : UInt32) (flags : PrintfFlags) :
    0 ∉ integerText value negative base precision width flags := by
  have hfinish := nonzero_putSign negative (startInteger value base flags).2
    (nonzero_putAlternative (startInteger value base flags).1.len base precision
      (zerosWidth negative width flags) (startInteger value base flags).2
      (nonzero_putZeros precision (zerosWidth negative width flags)
        (startInteger value base flags).2 (nonzero_startInteger value hbase hle flags)))
  exact nonzero_fieldText (List.mem_reverse.not.mpr hfinish) _ _

theorem fractionChar_ne_zero (fractional : ℤ) : fractionChar fractional ≠ 0 := by
  have hlt := Int.tmod_lt_of_pos fractional (by decide : (0 : ℤ) < 10)
  have hgt := Int.lt_tmod_of_pos fractional (by decide : (0 : ℤ) < 10)
  rw [fractionChar]
  generalize fractional.tmod 10 = d at *
  interval_cases d <;> decide

theorem nonzero_putFraction (n : ℕ) (fractional : ℤ) (count : UInt32) (h : 0 ∉ buf.chars) :
    0 ∉ (putFraction n fractional count buf).1.chars := by
  induction n generalizing fractional count buf with
  | zero => exact h
  | succ n ih =>
    have hdigit := fractionChar_ne_zero fractional
    rw [putFraction]
    dsimp only
    split_ifs
    · exact nonzero_push h hdigit
    · exact ih _ _ (nonzero_push h hdigit)
    · exact h

theorem nonzero_putCount (n : ℕ) (count : UInt32) (h : 0 ∉ buf.chars) :
    0 ∉ (putCount n count buf).chars := by
  induction n generalizing count buf with
  | zero => exact h
  | succ n ih =>
    rw [putCount]
    split_ifs
    · exact ih _ (nonzero_push h (by decide))
    · exact h

theorem nonzero_putFractionalPart (fractional : ℤ) (precision : UInt32) (flags : PrintfFlags)
    (h : 0 ∉ buf.chars) : 0 ∉ (putFractionalPart buf fractional precision flags).chars := by
  have hpoint : charOf '.' ≠ 0 := by decide
  unfold putFractionalPart
  dsimp only
  by_cases hprecision : precision ≠ 0
  · rw [if_pos hprecision]
    generalize (if flags.adaptExp && !flags.hash && 0 < fractional then
      (skipZeros fractional.toNat precision fractional.toNat).map id Nat.cast
      else (precision, fractional)) = r
    split_ifs
    · exact nonzero_push (nonzero_putCount _ _ (nonzero_putFraction _ _ _ h)) hpoint
    · exact h
  · rw [if_neg hprecision]
    split_ifs
    · exact nonzero_push h hpoint
    · exact h

theorem nonzero_decimalText (number : Components) (precision width : UInt32) (flags : PrintfFlags)
    (h : 0 ∉ buf.chars) : 0 ∉ decimalText number precision width flags buf := by
  have hdigits := nonzero_putDigits 10 (by decide) (by decide) false
    printfIntegerBufferSize number.integral
    (nonzero_putFractionalPart number.fractional precision flags h)
  have hfinish : 0 ∉ (finishDecimal number precision (zerosWidth number.isNegative width flags)
      flags buf).chars := by
    unfold finishDecimal
    dsimp only
    split_ifs
    · exact nonzero_putSign _ _ (nonzero_padZeros _ _ hdigits)
    · exact nonzero_putSign _ _ hdigits
  exact nonzero_fieldText (List.mem_reverse.not.mpr hfinish) _ _

theorem nonzero_exponentialText (e : Exponential) (width : UInt32) (flags : PrintfFlags)
    (h : 0 ∉ buf.chars) : 0 ∉ exponentialText e width flags buf := by
  have hfront := nonzero_decimalText e.components e.precision (decimalPartWidth e width flags)
    flags h
  have hletter : (if flags.uppercase then charOf 'E' else charOf 'e') ≠ 0 := by
    split_ifs <;> decide
  have hexponent : 0 ∉ exponentText e flags := by
    have hnumber := nonzero_integerText (absForPrinting e.flooredExp10) (e.flooredExp10 < 0) 10
      (by decide) (by decide) 0 (exp10PartWidth e - 1) { zeropad := true, plus := true }
    exact fun hmem => (List.mem_cons.mp hmem).elim (fun h => hletter h.symm) hnumber
  unfold exponentialText
  dsimp only
  split_ifs
  · exact hfront
  · exact nonzero_append (nonzero_append hfront hexponent) (nonzero_replicate _ (by decide))
  · exact nonzero_append (nonzero_append hfront hexponent) List.not_mem_nil

theorem nonzero_limitPrecision (n : ℕ) (precision : UInt32) (h : 0 ∉ buf.chars) :
    0 ∉ (limitPrecision n precision buf).2.chars := by
  induction n generalizing precision buf with
  | zero => exact h
  | succ n ih =>
    rw [limitPrecision]
    split_ifs
    · exact ih _ (nonzero_push h (by decide))
    · exact h

theorem nonzero_floatText {fa : FloatArithmetic F} {value : F} {precision width : UInt32}
    {preferExponential : Bool} {text : CString}
    (h : floatText fa value precision width flags preferExponential = some text) : 0 ∉ text := by
  have hlimit (precision : UInt32) :=
    nonzero_limitPrecision printfIntegerBufferSize precision nonzero_empty
  have hword {word : CString} (hword : 0 ∉ word)
      (h : some (fieldText word width.toNat flags) = some text) : 0 ∉ text := by
    obtain rfl := Option.some.inj h
    exact nonzero_fieldText hword _ _
  unfold floatText at h
  generalize (if !flags.precision then defaultFloatPrecision else precision) = q at h
  dsimp only at h
  split_ifs at h
  · exact hword (by decide) h
  · exact hword (by decide) h
  · exact hword (by decide) h
  · exact hword (by decide) h
  all_goals
    obtain ⟨e, -, h⟩ := Option.bind_eq_some_iff.mp h
    obtain rfl := Option.some.inj h
  · exact nonzero_exponentialText _ _ _ nonzero_empty
  · exact nonzero_exponentialText _ _ _ (hlimit q)
  · exact nonzero_decimalText _ _ _ _ (hlimit q)

theorem nonzero_stringText {p : Option CString} (hp : ∀ cs ∈ p, 0 ∉ cs)
    (precision width : UInt32) (flags : PrintfFlags) : 0 ∉ stringText p precision width flags := by
  cases p with
  | none => exact nonzero_fieldText (by decide) _ _
  | some cs =>
    have hcs := hp cs rfl
    have hpad := nonzero_replicate (c := charOf ' ')
      (width.toNat - (stringLength cs precision flags).toNat) (by decide)
    have htake : 0 ∉ cs.take precision.toNat := fun hmem => hcs (List.mem_of_mem_take hmem)
    exact nonzero_append (nonzero_append (nonzero_ite List.not_mem_nil hpad) (nonzero_ite htake hcs))
      (nonzero_ite hpad List.not_mem_nil)

theorem nonzero_pointerText (value precision : UInt32) (flags : PrintfFlags) :
    0 ∉ pointerText value precision flags := by
  unfold pointerText
  split_ifs
  · exact nonzero_fieldText (by decide) _ _
  · exact nonzero_integerText _ _ _ (by decide) (by decide) _ _ _

theorem zero_characterText (width : UInt32) (flags : PrintfFlags) :
    0 ∈ characterText c width flags ↔ c = 0 := by
  have hpad := nonzero_replicate (c := charOf ' ') (width.toNat - 1) (by decide)
  unfold characterText
  cases flags.left <;> simp [hpad, eq_comm]

theorem numericBase_range (c : UInt8) : 0 < numericBase c ∧ numericBase c ≤ 16 := by
  unfold numericBase
  split_ifs <;> decide

theorem nonzero_integerConversion {r : CString × List (VaArg F)}
    (h : integerConversion c s = .ok r) : 0 ∉ r.1 := by
  obtain ⟨hbase, hle⟩ := numericBase_range c
  simp only [integerConversion, bind, Except.bind] at h
  split_ifs at h
  all_goals
    split at h
    · cases h
    · obtain rfl := Except.ok.inj h
      exact nonzero_integerText _ _ _ hbase hle _ _ _

/-- The arguments end their strings with a zero, and have none inside. -/
def Terminated (args : List (VaArg F)) : Prop := ∀ cs, VaArg.string (some cs) ∈ args → 0 ∉ cs

def NoZeros (fp : FloatingPoint F) : Prop :=
  ∀ value precision width flags preferExponential,
    0 ∉ fp value precision width flags preferExponential

theorem nonzero_floatConversion (hfp : NoZeros fp) {r : CString × List (VaArg F)}
    (h : floatConversion fp c s = .ok r) : 0 ∉ r.1 := by
  simp only [floatConversion, bind, Except.bind] at h
  split at h
  · cases h
  · split_ifs at h
    all_goals
      obtain rfl := Except.ok.inj h
      exact hfp _ _ _ _ _

def ZeroAt (args : List (VaArg F)) (k : ℕ) : Prop :=
  ∃ value, args[k]? = some (.int value) ∧ value.toUInt8 = 0

theorem zeroAt_drop (args : List (VaArg F)) (n k : ℕ) :
    ZeroAt (args.drop n) k ↔ ZeroAt args (n+k) := by
  rw [ZeroAt, ZeroAt, List.getElem?_drop]

def PrintsZero (args : List (VaArg F)) : Item → Prop
  | .plain _ _ => False
  | .directive fields c _ => c = charOf 'c' ∧ ZeroAt args fields.types.length

theorem Terminated.drop {args : List (VaArg F)} (h : Terminated args) (n : ℕ) :
    Terminated (args.drop n) := fun cs hmem => h cs (List.mem_of_mem_drop hmem)

theorem zero_vaArg {args : List (VaArg F)} {r : UInt32 × List (VaArg F)}
    (h : vaArg VaArg.int? args = .ok r) : ZeroAt args 0 ↔ r.1.toUInt8 = 0 := by
  obtain ⟨a, rfl, ha⟩ := vaArg_ok h
  cases a with
  | int value =>
    obtain rfl := Option.some.inj ha
    simp [ZeroAt]
  | _ => cases ha

theorem string_vaArg {args : List (VaArg F)} (hargs : Terminated args)
    {r : Option CString × List (VaArg F)} (h : vaArg VaArg.string? args = .ok r) :
    ∀ cs ∈ r.1, 0 ∉ cs := by
  obtain ⟨a, rfl, ha⟩ := vaArg_ok h
  cases a with
  | string p =>
    obtain rfl := Option.some.inj ha
    intro cs hcs
    have hp : r.1 = some cs := hcs
    exact hargs cs (hp ▸ List.mem_cons_self)
  | _ => cases ha

theorem zero_conversion (hfp : NoZeros fp) (hargs : Terminated s.args) (hc : c ≠ 0) {p : Printed F}
    (h : conversion fp pos c s = .ok p) : 0 ∈ p.text ↔ c = charOf 'c' ∧ ZeroAt s.args 0 := by
  simp only [conversion, bind, Except.bind] at h
  split_ifs at h with hinteger hfloat hcharacter hstring hpointer hcount
  · have hne : c ≠ charOf 'c' := fun heq => absurd (heq ▸ hinteger) (by decide)
    split at h
    · cases h
    · rename_i r hr
      obtain rfl := Except.ok.inj h
      exact iff_of_false (nonzero_integerConversion hr) fun hboth => hne hboth.1
  · have hne : c ≠ charOf 'c' := fun heq => absurd (heq ▸ hfloat) (by decide)
    split at h
    · cases h
    · rename_i r hr
      obtain rfl := Except.ok.inj h
      exact iff_of_false (nonzero_floatConversion hfp hr) fun hboth => hne hboth.1
  · split at h
    · cases h
    · rename_i r hr
      obtain rfl := Except.ok.inj h
      rw [zero_vaArg hr, zero_characterText]
      exact (and_iff_right hcharacter).symm
  · split at h
    · cases h
    · rename_i r hr
      obtain rfl := Except.ok.inj h
      exact iff_of_false (nonzero_stringText (string_vaArg hargs hr) _ _ _) fun hboth =>
        hcharacter hboth.1
  · split at h
    · cases h
    · obtain rfl := Except.ok.inj h
      exact iff_of_false (nonzero_pointerText _ _ _) fun hboth => hcharacter hboth.1
  · split at h
    · cases h
    · obtain rfl := Except.ok.inj h
      exact iff_of_false List.not_mem_nil fun hboth => hcharacter hboth.1
  · obtain rfl := Except.ok.inj h
    exact iff_of_false (fun hmem => hc (List.mem_singleton.mp hmem).symm) fun hboth =>
      hcharacter hboth.1

theorem zero_item (hfp : NoZeros fp) {args : List (VaArg F)} (hargs : Terminated args) {i : Item}
    (hi : 0 ∉ i.text) {p : Printed F} (h : i.print fp pos args = .ok p) :
    0 ∈ p.text ↔ PrintsZero args i := by
  cases i with
  | plain c ne =>
    obtain rfl := Except.ok.inj h
    exact iff_of_false hi id
  | directive fields c closed =>
    have hc : c ≠ 0 := by
      rintro rfl
      exact hi (List.mem_cons_of_mem _ (List.mem_append_right _ List.mem_cons_self))
    simp only [Item.print, bind, Except.bind] at h
    split at h
    · cases h
    · rename_i s hs
      have hleft := (takes_fields fields [] args).left_eq hs
      have hzero := zero_conversion hfp (hleft ▸ hargs.drop _) hc h
      rw [hleft, zeroAt_drop] at hzero
      exact hzero

/-- A zero comes from a `%c` only. -/
theorem zero_items (hfp : NoZeros fp) {items : List Item} (hitems : 0 ∉ Format.itemsText items)
    {args : List (VaArg F)} (hargs : Terminated args) {p : Printed F}
    (h : printItems fp pos items args = .ok p) :
    0 ∈ p.text ↔ ∃ before i after, items = before ++ i :: after ∧
      PrintsZero (args.drop (before.flatMap Item.types).length) i := by
  induction items generalizing pos args p with
  | nil =>
    obtain rfl := Except.ok.inj h
    refine iff_of_false List.not_mem_nil ?_
    rintro ⟨before, i, after, heq, -⟩
    exact List.append_ne_nil_of_right_ne_nil _ (List.cons_ne_nil _ _) heq.symm
  | cons i items ih =>
    have htext : Format.itemsText (i :: items) = i.text ++ Format.itemsText items :=
      List.flatMap_cons
    rw [htext, List.mem_append, not_or] at hitems
    obtain ⟨hi, hitems⟩ := hitems
    simp only [printItems, bind, Except.bind] at h
    split at h
    · cases h
    · rename_i q hq
      split at h
      · cases h
      · rename_i t ht
        obtain rfl := Except.ok.inj h
        have hleft := (takes_item fp pos i args).left_eq hq
        have hrest := ih hitems (hleft ▸ hargs.drop _) ht
        rw [List.mem_append, zero_item hfp hargs hi hq, hrest, hleft]
        constructor
        · rintro (hzero | ⟨before, j, after, rfl, hzero⟩)
          · exact ⟨[], i, items, rfl, hzero⟩
          · refine ⟨i :: before, j, after, rfl, ?_⟩
            rwa [List.flatMap_cons, List.length_append, ← List.drop_drop]
        · rintro ⟨before, j, after, heq, hzero⟩
          cases before with
          | nil =>
            obtain ⟨rfl, rfl⟩ := List.cons.inj heq
            exact Or.inl hzero
          | cons b before =>
            obtain ⟨rfl, rfl⟩ := List.cons.inj heq
            refine Or.inr ⟨before, j, after, rfl, ?_⟩
            rwa [List.flatMap_cons, List.length_append, ← List.drop_drop] at hzero

/-- What `strlen` and the like take for the string at `p`. -/
def StringAt (b : Buffer UInt8) (p : ℕ) (text : CString) : Prop :=
  b.cells p (text.length + 1) = (text ++ [0]).map some ∧ 0 ∉ text

theorem take_first (cs : CString) :
    (cs ++ [0]).take ((cs.takeWhile (· != 0)).length + 1) = cs.takeWhile (· != 0) ++ [0] := by
  induction cs with
  | nil => rfl
  | cons c cs ih =>
    by_cases hc : c = 0
    · simp [hc]
    · simp [hc, ih]

theorem stringAt_fill (b : Buffer UInt8) (p : ℕ) (cs : CString) :
    StringAt (b.fill p (cs ++ [0])) p (cs.takeWhile (· != 0)) := by
  have hle : (cs.takeWhile (· != 0)).length + 1 ≤ (cs ++ [0]).length := by
    rw [List.length_append]
    exact Nat.succ_le_succ (List.takeWhile_prefix _).length_le
  refine ⟨?_, fun hmem => ?_⟩
  · rw [Buffer.cells_fill_take hle, take_first]
  · exact absurd (List.mem_takeWhile_imp hmem) (by decide)

theorem length_string_iff (cs : CString) (k : ℕ) :
    cs.length = ((cs.take k).takeWhile (· != 0)).length ↔ cs.length ≤ k ∧ 0 ∉ cs := by
  have hbegins : (cs.take k).takeWhile (· != 0) <+: cs :=
    (List.takeWhile_prefix _).trans (List.take_prefix k cs)
  constructor
  · intro h
    have heq := hbegins.eq_of_length h.symm
    have hle : cs.length ≤ k := by
      rw [h]
      exact (List.takeWhile_prefix _).length_le.trans (List.length_take_le k cs)
    refine ⟨hle, fun hmem => ?_⟩
    rw [← heq] at hmem
    exact absurd (List.mem_takeWhile_imp hmem) (by decide)
  · rintro ⟨hle, hcs⟩
    have hall : ∀ c ∈ cs, (c != 0) = true := fun c hc =>
      bne_iff_ne.mpr fun hzero => hcs (hzero ▸ hc)
    rw [List.take_of_length_le hle, List.takeWhile_eq_self_iff.mpr hall]

end BleFirmware.PrintfZeros
