import BleFirmware.PrintfFields

/-!
# What a format prints

The meaning of a format is a text with the counts that are stored and the arguments
that are left, or a fault; it depends on no gadget but for the characters before it,
which a stored count counts as well. The loop sends exactly this text to its gadget.
-/

namespace BleFirmware.PrintfSyntax
open OutputGadget PrintfInteger

variable {F : Type}

structure Printed (F : Type) where
  text : CString
  stored : List WriteBack
  args : List (VaArg F)

def characterText (c : UInt8) (width : UInt32) (flags : PrintfFlags) : CString :=
  let pad := List.replicate (width.toNat - 1) (charOf ' ')
  (if flags.left then [] else pad) ++ [c] ++ if flags.left then pad else []

def stringLength (p : CString) (precision : UInt32) (flags : PrintfFlags) : UInt32 :=
  let l := strnlenS p (if precision != 0 then precision else printfMaxPossibleBufferSize)
  if flags.precision then if l < precision then l else precision else l

def stringText (p : Option CString) (precision width : UInt32) (flags : PrintfFlags) : CString :=
  match p with
  | none => fieldText ("(null)".toList.map charOf) width.toNat flags
  | some p =>
    let pad := List.replicate (width.toNat - (stringLength p precision flags).toNat) (charOf ' ')
    (if flags.left then [] else pad) ++ (if flags.precision then p.take precision.toNat else p) ++
      if flags.left then pad else []

def pointerText (value precision : UInt32) (flags : PrintfFlags) : CString :=
  let flags := { flags with zeropad := true, pointer := true }
  if value = 0 then fieldText ("(nil)".toList.map charOf) 10 flags
  else integerText value.toUInt64 false 16 precision 10 flags

def integerConversion (c : UInt8) (s : Specifier F) :
    Except PrintfFault (CString × List (VaArg F)) :=
  let base := numericBase c
  let flags := integerFlags c s.flags
  if flags.signed then do
    let (value, args) ← signedArgument flags s.args
    .ok (integerText (absForPrinting value) (value < 0) base s.precision s.width flags, args)
  else do
    let flags := { flags with plus := false, space := false }
    let (value, args) ← unsignedArgument flags s.args
    .ok (integerText value false base s.precision s.width flags, args)

def floatConversion (fp : FloatingPoint F) (c : UInt8) (s : Specifier F) :
    Except PrintfFault (CString × List (VaArg F)) := do
  let (value, args) ← vaArg (if s.flags.longDouble then VaArg.longDouble? else VaArg.double?) s.args
  if c = charOf 'f' ∨ c = charOf 'F' then
    let flags := if c = charOf 'F' then { s.flags with uppercase := true } else s.flags
    .ok (fp value s.precision s.width flags false, args)
  else
    let flags := if c = charOf 'g' ∨ c = charOf 'G' then { s.flags with adaptExp := true } else s.flags
    let flags := if c = charOf 'E' ∨ c = charOf 'G' then { flags with uppercase := true } else flags
    .ok (fp value s.precision s.width flags true, args)

def conversion (fp : FloatingPoint F) (pos : UInt32) (c : UInt8) (s : Specifier F) :
    Except PrintfFault (Printed F) :=
  if c ∈ integerSpecifiers then do
    let (text, args) ← integerConversion c s
    .ok ⟨text, [], args⟩
  else if c ∈ floatSpecifiers then do
    let (text, args) ← floatConversion fp c s
    .ok ⟨text, [], args⟩
  else if c = charOf 'c' then do
    let (value, args) ← vaArg VaArg.int? s.args
    .ok ⟨characterText value.toUInt8 s.width s.flags, [], args⟩
  else if c = charOf 's' then do
    let (p, args) ← vaArg VaArg.string? s.args
    .ok ⟨stringText p s.precision s.width s.flags, [], args⟩
  else if c = charOf 'p' then do
    let (value, args) ← vaArg VaArg.pointer? s.args
    .ok ⟨pointerText value s.precision s.flags, [], args⟩
  else if c = charOf 'n' then do
    let (address, args) ← vaArg VaArg.pointer? s.args
    .ok ⟨[], [writeBack pos s.flags address], args⟩
  else .ok ⟨[c], [], s.args⟩

theorem printCharacter_eq (g : OutputGadget) (c : UInt8) (width : UInt32) (flags : PrintfFlags) :
    printCharacter g c width flags = g.puts (characterText c width flags) := by
  cases hl : flags.left <;> simp [printCharacter, characterText, putSpaces_eq, puts_append, hl] <;>
    rfl

theorem putString_eq (flags : PrintfFlags) (p : CString) (precision : UInt32) (g : OutputGadget) :
    putString flags p precision g =
      g.puts (if flags.precision then p.take precision.toNat else p) := by
  induction p generalizing precision g with
  | nil => simp [putString, puts_nil]
  | cons c p ih =>
    rw [putString, ih]
    cases hp : flags.precision with
    | false => simp [puts_cons]
    | true =>
      by_cases hzero : precision = 0
      · simp [hzero, puts_nil]
      · have hsplit : precision.toNat = (precision - 1).toNat + 1 := by
          rw [toNat_pred hzero, Nat.sub_add_cancel (toNat_pos hzero)]
        simp [hzero, hsplit, puts_cons]

theorem printString_eq (g : OutputGadget) (p : Option CString) (precision width : UInt32)
    (flags : PrintfFlags) :
    printString g p precision width flags = g.puts (stringText p precision width flags) := by
  cases p with
  | none =>
    rw [printString, outRev_eq (by decide)]
    rfl
  | some p =>
    cases hl : flags.left <;>
      simp [printString, stringText, stringLength, putString_eq, putSpaces_eq, puts_append, hl]

theorem printPointer_eq (g : OutputGadget) (value precision : UInt32) (flags : PrintfFlags) :
    printPointer g value precision flags = g.puts (pointerText value precision flags) := by
  unfold printPointer pointerText
  split_ifs with hnull
  · rw [outRev_eq (by decide)]
    rfl
  · exact printInteger_eq _ _ _ _ _ _ _

theorem evalInteger_eq (c : UInt8) (g : OutputGadget) (s : Specifier F) :
    evalInteger c g s = (integerConversion c s).map fun r => (g.puts r.1, r.2) := by
  simp only [evalInteger, integerConversion, bind, Except.bind, printInteger_eq]
  split_ifs with hsigned
  · cases signedArgument (integerFlags c s.flags) s.args <;> rfl
  · cases unsignedArgument { integerFlags c s.flags with plus := false, space := false } s.args <;>
      rfl

theorem evalFloat_eq (fp : FloatingPoint F) (c : UInt8) (g : OutputGadget) (s : Specifier F) :
    evalFloat fp c g s = (floatConversion fp c s).map fun r => (g.puts r.1, r.2) := by
  simp only [evalFloat, floatConversion, bind, Except.bind]
  cases vaArg (if s.flags.longDouble then VaArg.longDouble? else VaArg.double?) s.args with
  | error f => rfl
  | ok r =>
    dsimp only
    split_ifs <;> rfl

theorem evalSpecifier_eq (fp : FloatingPoint F) (g : OutputGadget) (stored : List WriteBack)
    {s : Specifier F} {c : UInt8} {format : CString} (h : s.format = c :: format) :
    evalSpecifier fp g stored s = (conversion fp g.pos c s).map fun p =>
      ⟨g.puts p.text, stored ++ p.stored, format, p.args⟩ := by
  unfold evalSpecifier conversion
  simp only [h, evalInteger_eq, evalFloat_eq, printCharacter_eq, printString_eq, printPointer_eq,
    bind, Except.bind]
  split_ifs
  · cases integerConversion c s <;> simp [Except.map]
  · cases floatConversion fp c s <;> simp [Except.map]
  · cases vaArg VaArg.int? s.args <;> simp [Except.map]
  · cases vaArg VaArg.string? s.args <;> simp [Except.map]
  · cases vaArg VaArg.pointer? s.args <;> simp [Except.map]
  · cases vaArg VaArg.pointer? s.args <;> simp [Except.map, puts_nil]
  · simp [Except.map, puts_cons, puts_nil]

def Item.print (fp : FloatingPoint F) (pos : UInt32) (i : Item) (args : List (VaArg F)) :
    Except PrintfFault (Printed F) :=
  match i with
  | plain c _ => .ok ⟨[c], [], args⟩
  | directive fields specifier _ => do
    let s ← fields.apply [] args
    conversion fp pos specifier s

def printItems (fp : FloatingPoint F) (pos : UInt32) :
    List Item → List (VaArg F) → Except PrintfFault (Printed F)
  | [], args => .ok ⟨[], [], args⟩
  | i :: items, args => do
    let p ← i.print fp pos args
    let q ← printItems fp (pos + UInt32.ofNat p.text.length) items p.args
    .ok ⟨p.text ++ q.text, p.stored ++ q.stored, q.args⟩

/-- A directive that is cut off takes its arguments, and then the format ends or not. -/
def printRest : Option Rest → List (VaArg F) → Except PrintfFault Unit
  | none, _ => .ok ()
  | some r, args => do
    let _ ← r.fields.apply [] args
    if r.fields.advances then .ok () else .error .pastEnd

def Format.print (fp : FloatingPoint F) (pos : UInt32) (f : Format) (args : List (VaArg F)) :
    Except PrintfFault (Printed F) := do
  let p ← printItems fp pos f.items args
  printRest f.rest p.args
  .ok p

theorem Fields.apply_format (f : Fields) (args : List (VaArg F)) (format : CString) :
    f.apply format args = (f.apply [] args).map fun s => { s with format } := by
  have hcarry := Width.apply_format f.width ⟨f.flags.foldl Flag.set {}, 0, 0, [], args⟩ format
  dsimp only at hcarry
  simp only [apply, hcarry, bind, Except.bind]
  cases f.width.apply ⟨f.flags.foldl Flag.set {}, 0, 0, [], args⟩ with
  | error e => rfl
  | ok s =>
    simp only [Except.map, Precision.apply_format f.precision s format]
    cases f.precision.apply s <;> rfl

theorem conversion_format (fp : FloatingPoint F) (pos : UInt32) (c : UInt8) (s : Specifier F)
    (format : CString) : conversion fp pos c { s with format } = conversion fp pos c s := rfl

theorem evalFields_text {f : Fields} {next : CString} (h : f.Closed next)
    (args : List (VaArg F)) :
    evalFields (charOf '%' :: (f.text ++ next)) args =
      (f.apply next args).mapError Stop.fault >>= closeAt f.advances next := by
  rw [evalFields_eq, readFields_text h]

theorem turn_item (fp : FloatingPoint F) (g : OutputGadget) (stored : List WriteBack) (i : Item)
    (t : CString) (args : List (VaArg F)) :
    formatStringTurn fp ⟨g, stored, i.text ++ t, args⟩ =
      match i.print fp g.pos args with
      | .ok p => .inl ⟨g.puts p.text, stored ++ p.stored, t, p.args⟩
      | .error f => .inr (.error f) := by
  cases i with
  | plain c ne =>
    simp only [Item.text, Item.print, List.singleton_append, formatStringTurn, if_pos ne,
      List.append_nil]
    rfl
  | directive fields c closed =>
    have htext : Item.text (.directive fields c closed) ++ t =
        charOf '%' :: (fields.text ++ c :: t) := by
      simp [Item.text]
    have hfields := evalFields_text ((closed_cons fields c t).mpr closed) args
    rw [Fields.apply_format] at hfields
    simp only [htext, formatStringTurn, evalDirective, hfields, Item.print, bind, Except.bind,
      ne_eq, not_true_eq_false, if_false]
    cases fields.apply [] args with
    | error f => rfl
    | ok s =>
      simp only [Except.map, Except.mapError, closeAt_eq (List.cons_ne_nil c t)]
      rw [evalSpecifier_eq fp g stored rfl, conversion_format]
      cases conversion fp g.pos c s <;> rfl

theorem turn_rest (fp : FloatingPoint F) (g : OutputGadget) (stored : List WriteBack)
    (r : Option Rest) (args : List (VaArg F)) :
    formatStringTurn fp ⟨g, stored, Format.restText r, args⟩ =
      .inr ((printRest r args).map fun _ => ⟨g, stored, Format.restText r, args⟩) := by
  cases r with
  | none => rfl
  | some r =>
    have hfields := evalFields_text r.closed args
    rw [List.append_nil] at hfields
    simp only [Format.restText, formatStringTurn, evalDirective, hfields, printRest, bind,
      Except.bind, ne_eq, not_true_eq_false, if_false]
    cases r.fields.apply [] args with
    | error f => rfl
    | ok s =>
      simp only [Except.mapError, closeAt, and_true]
      cases r.fields.advances <;> rfl

theorem run_items (fp : FloatingPoint F) (items : List Item) (r : Option Rest) {n : ℕ}
    (hn : items.length < n) (g : OutputGadget) (stored : List WriteBack) (args : List (VaArg F)) :
    Loop.run (formatStringTurn fp) n ⟨g, stored, Format.text ⟨items, r⟩, args⟩ =
      some ((Format.print fp g.pos ⟨items, r⟩ args).map fun p =>
        ⟨g.puts p.text, stored ++ p.stored, Format.restText r, p.args⟩) := by
  induction items generalizing n g stored args with
  | nil =>
    obtain ⟨k, rfl⟩ : ∃ k, n = k+1 := ⟨n-1, by omega⟩
    have htext : Format.text ⟨[], r⟩ = Format.restText r := rfl
    rw [htext, Loop.run_succ_inr (turn_rest fp g stored r args)]
    simp only [Format.print, printItems, bind, Except.bind]
    cases printRest r args <;> simp [Except.map, puts_nil]
  | cons i items ih =>
    rw [List.length_cons] at hn
    obtain ⟨k, rfl⟩ : ∃ k, n = k+1 := ⟨n-1, by omega⟩
    have hturn := turn_item fp g stored i (Format.text ⟨items, r⟩) args
    rw [text_cons]
    simp only [Format.print, printItems, bind, Except.bind]
    cases hprint : i.print fp g.pos args with
    | error f =>
      rw [hprint] at hturn
      rw [Loop.run_succ_inr hturn]
      rfl
    | ok p =>
      rw [hprint] at hturn
      rw [Loop.run_succ_inl hturn, ih (by omega), puts_pos]
      simp only [Format.print, bind, Except.bind]
      cases printItems fp (g.pos + UInt32.ofNat p.text.length) items p.args with
      | error f => rfl
      | ok q =>
        cases hrest : printRest r q.args <;>
          simp [Except.map, puts_append, hrest]

theorem length_items_le (items : List Item) (r : Option Rest) :
    items.length ≤ (Format.text ⟨items, r⟩).length := by
  induction items with
  | nil => exact Nat.zero_le _
  | cons i items ih =>
    have hpos : 0 < i.text.length := by cases i <;> exact Nat.succ_pos _
    rw [text_cons, List.length_append, List.length_cons]
    omega

/-- The loop ends on every format, and sends to its gadget what the format prints. -/
theorem formatStringLoop_eq (fp : FloatingPoint F) (g : OutputGadget) (stored : List WriteBack)
    (f : Format) (args : List (VaArg F)) :
    formatStringLoop fp ⟨g, stored, f.text, args⟩ =
      some ((f.print fp g.pos args).map fun p =>
        ⟨g.puts p.text, stored ++ p.stored, Format.restText f.rest, p.args⟩) :=
  run_items fp f.items f.rest (Nat.lt_succ_of_le (length_items_le f.items f.rest)) g stored args

/-- Whatever is between two turns, what is left of the format has one reading, and the loop
ends with what its directives print. -/
theorem formatStringLoop_prints (fp : FloatingPoint F) (s : PrintfState F) :
    ∃! f : Format, f.text = s.format ∧ formatStringLoop fp s =
      some ((f.print fp s.output.pos s.args).map fun p =>
        ⟨s.output.puts p.text, s.stored ++ p.stored, Format.restText f.rest, p.args⟩) := by
  obtain ⟨g, stored, format, args⟩ := s
  obtain ⟨f, rfl⟩ := exists_format format
  exact ⟨f, ⟨rfl, formatStringLoop_eq fp g stored f args⟩, fun _ h => text_injective h.1⟩

theorem items_of_print {fp : FloatingPoint F} {pos : UInt32} {f : Format} {args : List (VaArg F)}
    {p : Printed F} (h : f.print fp pos args = .ok p) : printItems fp pos f.items args = .ok p := by
  simp only [Format.print, bind, Except.bind] at h
  split at h
  · cases h
  · rename_i q hq
    split at h
    · cases h
    · rw [hq, Except.ok.inj h]

theorem print_complete (fp : FloatingPoint F) (pos : UInt32) (items : List Item)
    (args : List (VaArg F)) :
    Format.print fp pos ⟨items, none⟩ args = printItems fp pos items args := by
  simp only [Format.print, bind, Except.bind]
  cases printItems fp pos items args <;> rfl

theorem printItems_append (fp : FloatingPoint F) (pos : UInt32) (items more : List Item)
    (args : List (VaArg F)) :
    printItems fp pos (items ++ more) args = (do
      let p ← printItems fp pos items args
      let q ← printItems fp (pos + UInt32.ofNat p.text.length) more p.args
      .ok ⟨p.text ++ q.text, p.stored ++ q.stored, q.args⟩) := by
  induction items generalizing pos args with
  | nil =>
    simp only [List.nil_append, printItems, bind, Except.bind, List.length_nil]
    have hpos : pos + UInt32.ofNat 0 = pos := UInt32.add_zero pos
    rw [hpos]
    cases printItems fp pos more args <;> rfl
  | cons i items ih =>
    simp only [List.cons_append, printItems, bind, Except.bind, ih]
    cases i.print fp pos args with
    | error e => rfl
    | ok p =>
      dsimp only
      cases printItems fp (pos + UInt32.ofNat p.text.length) items p.args with
      | error e => rfl
      | ok q =>
        dsimp only
        rw [List.length_append, UInt32.ofNat_add, ← UInt32.add_assoc]
        cases printItems fp (pos + UInt32.ofNat p.text.length + UInt32.ofNat q.text.length) more
            q.args <;> simp

end BleFirmware.PrintfSyntax
