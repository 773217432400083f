import BleFirmware.PrintfSyntax

/-!
# What the fields of a directive mean

The loop reads a directive and takes arguments for its stars as it goes. Here the two
are apart: the text is read first, and what was read is applied to the arguments. A
directive that the format cuts off returns where the last character is behind a step
of the format pointer that looks for the terminator, and runs past the end elsewhere.
-/

namespace BleFirmware.PrintfSyntax

variable {F : Type}

def numberOf (digits : CString) : UInt32 :=
  digits.foldl (fun i c => i * 10 + (c - charOf '0').toUInt32) 0

def Width.apply (w : Width) (s : Specifier F) : Except PrintfFault (Specifier F) :=
  match w with
  | omitted => .ok s
  | number digits => .ok { s with width := numberOf digits }
  | argument => do
    let (w, args) ← vaArg VaArg.int? s.args
    if w.toInt32 < 0 then
      .ok { s with flags := { s.flags with left := true }, width := -w, args }
    else .ok { s with width := w, args }

def Precision.apply (p : Precision) (s : Specifier F) : Except PrintfFault (Specifier F) :=
  match p with
  | omitted => .ok s
  | empty => .ok { s with flags := { s.flags with precision := true } }
  | negative _ => .ok { s with flags := { s.flags with precision := false } }
  | number digits =>
    .ok { s with flags := { s.flags with precision := true }, precision := numberOf digits }
  | argument => do
    let (p, args) ← vaArg VaArg.int? s.args
    if p.toInt32 < 0 then .ok { s with flags := { s.flags with precision := false }, args }
    else .ok { s with flags := { s.flags with precision := true }, precision := p, args }

def Length.apply (n : Length) (flags : PrintfFlags) : PrintfFlags :=
  match n with
  | omitted => flags
  | l => { flags with long := true }
  | ll => { flags with long := true, longLong := true }
  | L => { flags with longDouble := true }
  | h => { flags with short := true }
  | hh => { flags with short := true, char := true }
  | t => { flags with int := true }
  | j => { flags with longLong := true }
  | z => { flags with int := true }

/-- Whether the terminator is looked for behind the part. -/
def Width.advances : Width → Bool
  | argument => true
  | _ => false

def Precision.advances : Precision → Bool
  | omitted => false
  | number _ => false
  | _ => true

def Length.advances : Length → Bool
  | omitted => false
  | _ => true

namespace Fields

/-- Whether the terminator is looked for behind the last part; behind the percent sign it
is. -/
def advances (f : Fields) : Bool :=
  if f.length ≠ .omitted then f.length.advances
  else if f.precision ≠ .omitted then f.precision.advances
  else if f.width ≠ .omitted then f.width.advances
  else f.flags.isEmpty

def apply (f : Fields) (format : CString) (args : List (VaArg F)) :
    Except PrintfFault (Specifier F) := do
  let s ← f.width.apply ⟨f.flags.foldl Flag.set {}, 0, 0, format, args⟩
  let s ← f.precision.apply s
  .ok { s with flags := f.length.apply s.flags }

end Fields

/-- The format is set to what is left of it, unless a step found its terminator. -/
def closeAt (advances : Bool) (rest : CString) (s : Specifier F) : Except Stop (Specifier F) :=
  if advances = true ∧ rest = [] then .error .returns else .ok { s with format := rest }

theorem advance_eq (c : UInt8) (format : CString) :
    advance (c :: format) = if format = [] then .error .returns else .ok format := by
  cases format <;> rfl

theorem advance_of_deref {format : CString} {c : UInt8} (h : deref format = c) (hc : c ≠ 0) :
    advance format = if format.tail = [] then .error .returns else .ok format.tail := by
  rw [eq_cons_of_deref h hc]
  exact advance_eq c format.tail

theorem atou_eq (i : UInt32) (str : CString) :
    atou i str = ((str.takeWhile isDigit).foldl (fun i c => i * 10 + (c - charOf '0').toUInt32) i,
      str.dropWhile isDigit) := by
  induction str generalizing i with
  | nil => rfl
  | cons c str ih =>
    rw [atou, List.takeWhile_cons, List.dropWhile_cons]
    split
    · rw [ih]
      rfl
    · rfl

theorem parseFlags_eq (flags : PrintfFlags) (format : CString) :
    parseFlags flags format = ((readFlags format).1.foldl Flag.set flags, (readFlags format).2) := by
  induction format generalizing flags with
  | nil => rfl
  | cons c format ih =>
    rw [parseFlags, readFlags]
    unfold Flag.ofChar
    split_ifs
    all_goals first | exact ih _ | rfl

theorem evalWidth_eq (s : Specifier F) :
    evalWidth s = ((readWidth s.format).1.apply s).mapError Stop.fault >>=
      closeAt (readWidth s.format).1.advances (readWidth s.format).2 := by
  unfold evalWidth readWidth
  split_ifs with hdigit hstar
  · rw [atou_eq]
    rfl
  · rw [advance_of_deref hstar (by decide)]
    cases hv : vaArg VaArg.int? s.args with
    | error f => simp [Width.apply, hv, Except.mapError, bind, Except.bind]
    | ok r =>
      by_cases hend : s.format.tail = []
      · simp [Width.apply, hv, Except.mapError, bind, Except.bind, closeAt, Width.advances, hend]
        split_ifs <;> rfl
      · simp [Width.apply, hv, Except.mapError, bind, Except.bind, closeAt, Width.advances, hend]
        split_ifs <;> rfl
  · rfl

theorem skipNegative_eq (c : UInt8) (format : CString) :
    skipNegative (c :: format) =
      if format.dropWhile isDigit = [] then .error .returns else .ok (format.dropWhile isDigit) := by
  induction format generalizing c with
  | nil => rfl
  | cons d format ih =>
    rw [skipNegative, List.dropWhile_cons]
    split
    · exact ih d
    · rfl

theorem evalPrecision_eq (s : Specifier F) :
    evalPrecision s = ((readPrecision s.format).1.apply s).mapError Stop.fault >>=
      closeAt (readPrecision s.format).1.advances (readPrecision s.format).2 := by
  unfold evalPrecision readPrecision
  by_cases hdot : deref s.format = charOf '.'
  · rw [if_pos hdot, if_pos hdot, advance_of_deref hdot (by decide)]
    by_cases hend : s.format.tail = []
    · rw [hend, if_neg (show deref [] ≠ charOf '-' by decide),
        if_neg (show ¬ isDigit (deref []) = true by decide),
        if_neg (show deref [] ≠ charOf '*' by decide)]
      rfl
    · simp only [if_neg hend, bind, Except.bind]
      by_cases hminus : deref s.format.tail = charOf '-'
      · rw [if_pos hminus, if_pos hminus, eq_cons_of_deref hminus (by decide), skipNegative_eq]
        simp only [Precision.apply, Except.mapError, closeAt, Precision.advances, List.tail_cons]
        split_ifs <;> simp_all
      · rw [if_neg hminus, if_neg hminus]
        by_cases hdigit : isDigit (deref s.format.tail) = true
        · rw [if_pos hdigit, if_pos hdigit, atou_eq]
          rfl
        · rw [if_neg hdigit, if_neg hdigit]
          by_cases hstar : deref s.format.tail = charOf '*'
          · rw [if_pos hstar, if_pos hstar, advance_of_deref hstar (by decide)]
            simp only [Precision.apply, Precision.advances, bind, Except.bind]
            cases vaArg VaArg.int? s.args with
            | error f => rfl
            | ok r =>
              by_cases hrest : s.format.tail.tail = []
              · simp only [Except.mapError, closeAt, hrest]
                split_ifs <;> simp_all
              · simp only [Except.mapError, closeAt, if_neg hrest]
                split_ifs <;> simp_all
          · simp only [if_neg hstar, Precision.apply, Except.mapError, closeAt, hend, and_false,
              if_false]
  · rw [if_neg hdot, if_neg hdot]
    rfl

theorem evalLength_eq (s : Specifier F) :
    evalLength s = closeAt (readLength s.format).1.advances (readLength s.format).2
      { s with flags := (readLength s.format).1.apply s.flags } := by
  unfold evalLength readLength
  have hclose : ∀ (c : UInt8) (n : Length) (flags : PrintfFlags), deref s.format = c → c ≠ 0 →
      n.advances = true → n.apply s.flags = flags →
      (advance s.format >>= fun format => .ok { s with flags, format }) =
        closeAt n.advances s.format.tail { s with flags := n.apply s.flags } := by
    intro c n flags hc hne hn hflags
    rw [advance_of_deref hc hne, hn, hflags, closeAt]
    by_cases hend : s.format.tail = [] <;> simp [hend, bind, Except.bind]
  -- a letter that may be doubled
  have hdouble : ∀ (c : UInt8) (n nn : Length) (flags flags' : PrintfFlags),
      deref s.format = c → c ≠ 0 → n.advances = true → nn.advances = true →
      n.apply s.flags = flags → nn.apply s.flags = flags' →
      (advance s.format >>= fun format =>
        if deref format = c then advance format >>= fun format => .ok { s with flags := flags', format }
        else .ok { s with flags, format }) =
      let r := if deref s.format.tail = c then (nn, s.format.tail.tail) else (n, s.format.tail)
      closeAt r.1.advances r.2 { s with flags := r.1.apply s.flags } := by
    intro c n nn flags flags' hc hne hn hnn hflags hflags'
    rw [advance_of_deref hc hne]
    by_cases hend : s.format.tail = []
    · rw [hend, if_neg (Ne.symm hne : deref [] ≠ c)]
      simp [closeAt, hn, bind, Except.bind]
    · by_cases hagain : deref s.format.tail = c
      · simp only [if_neg hend, if_pos hagain, bind, Except.bind, advance_of_deref hagain hne,
          closeAt, hnn, hflags']
        by_cases hrest : s.format.tail.tail = [] <;> simp [hrest]
      · simp [hend, hagain, bind, Except.bind, closeAt, hflags]
  by_cases hl : deref s.format = charOf 'l'
  · rw [if_pos hl, if_pos hl]
    exact hdouble _ .l .ll _ _ hl (by decide) rfl rfl rfl rfl
  rw [if_neg hl, if_neg hl]
  by_cases hL : deref s.format = charOf 'L'
  · rw [if_pos hL, if_pos hL]
    exact hclose _ .L _ hL (by decide) rfl rfl
  rw [if_neg hL, if_neg hL]
  by_cases hh : deref s.format = charOf 'h'
  · rw [if_pos hh, if_pos hh]
    exact hdouble _ .h .hh _ _ hh (by decide) rfl rfl rfl rfl
  rw [if_neg hh, if_neg hh]
  by_cases ht : deref s.format = charOf 't'
  · rw [if_pos ht, if_pos ht]
    exact hclose _ .t _ ht (by decide) rfl rfl
  rw [if_neg ht, if_neg ht]
  by_cases hj : deref s.format = charOf 'j'
  · rw [if_pos hj, if_pos hj]
    exact hclose _ .j _ hj (by decide) rfl rfl
  rw [if_neg hj, if_neg hj]
  by_cases hz : deref s.format = charOf 'z'
  · rw [if_pos hz, if_pos hz]
    exact hclose _ .z _ hz (by decide) rfl rfl
  rw [if_neg hz, if_neg hz]
  rfl

theorem closeAt_eq {rest : CString} (h : rest ≠ []) (advances : Bool) (s : Specifier F) :
    closeAt advances rest s = .ok { s with format := rest } :=
  if_neg fun hand => h hand.2

theorem Width.apply_format (w : Width) (s : Specifier F) (format : CString) :
    w.apply { s with format } = (w.apply s).map fun t => { t with format } := by
  cases w with
  | argument =>
    simp only [apply, bind, Except.bind, Except.map]
    cases vaArg VaArg.int? s.args with
    | error f => rfl
    | ok r => dsimp only; split_ifs <;> rfl
  | _ => rfl

theorem Precision.apply_format (p : Precision) (s : Specifier F) (format : CString) :
    p.apply { s with format } = (p.apply s).map fun t => { t with format } := by
  cases p with
  | argument =>
    simp only [apply, bind, Except.bind, Except.map]
    cases vaArg VaArg.int? s.args with
    | error f => rfl
    | ok r => dsimp only; split_ifs <;> rfl
  | _ => rfl

theorem advances_width {f : Fields} (hp : f.precision = .omitted) (hn : f.length = .omitted)
    (hw : f.width = .omitted → f.flags ≠ []) : f.advances = f.width.advances := by
  obtain ⟨flags, width, precision, length⟩ := f
  subst hp hn
  cases width with
  | omitted => simpa [Fields.advances, Width.advances] using hw rfl
  | _ => rfl

theorem advances_precision {f : Fields} (hp : f.precision ≠ .omitted) (hn : f.length = .omitted) :
    f.advances = f.precision.advances := by
  simp [Fields.advances, hp, hn]

theorem advances_length {f : Fields} (hn : f.length ≠ .omitted) :
    f.advances = f.length.advances :=
  if_pos hn

theorem readPrecision_omitted {s : CString} (h : (readPrecision s).1 = .omitted) :
    (readPrecision s).2 = s := by
  have htext := text_readPrecision s
  rwa [h] at htext

theorem readLength_omitted {s : CString} (h : (readLength s).1 = .omitted) :
    (readLength s).2 = s := by
  have htext := text_readLength s
  rwa [h] at htext

theorem evalFields_eq (c : UInt8) (format : CString) (args : List (VaArg F)) :
    evalFields (c :: format) args =
      ((readFields format).1.apply (readFields format).2 args).mapError Stop.fault >>=
        closeAt (readFields format).1.advances (readFields format).2 := by
  by_cases hformat : format = []
  · subst hformat
    rfl
  rw [evalFields, advance_eq, if_neg hformat]
  simp only [bind, Except.bind, parseFlags_eq, evalWidth_eq, readFields, Fields.apply]
  generalize hw : readWidth (readFlags format).2 = w
  generalize hp : readPrecision w.2 = p
  generalize hn : readLength p.2 = n
  have hcarry := Width.apply_format w.1
    ⟨(readFlags format).1.foldl Flag.set {}, 0, 0, n.2, args⟩ (readFlags format).2
  dsimp only at hcarry
  rw [hcarry]
  cases w.1.apply ⟨(readFlags format).1.foldl Flag.set {}, 0, 0, n.2, args⟩ with
  | error f => rfl
  | ok t =>
    simp only [Except.map, Except.mapError]
    by_cases hwend : w.2 = []
    · obtain rfl : p = (.omitted, []) := by rw [← hp, hwend]; rfl
      obtain rfl : n = (.omitted, []) := by rw [← hn]; rfl
      have hadvances : Fields.advances ⟨(readFlags format).1, w.1, .omitted, .omitted⟩ =
          w.1.advances := by
        refine advances_width rfl rfl fun homitted hflags => hformat ?_
        have htext := text_readWidth (readFlags format).2
        have hflagsText := text_readFlags format
        dsimp only at homitted hflags
        rw [hw, hwend, homitted] at htext
        rw [hflags, ← htext] at hflagsText
        exact hflagsText.symm
      rw [hadvances, closeAt, hwend]
      cases w.1.advances <;> rfl
    · rw [closeAt_eq hwend]
      simp only [evalPrecision_eq, hp, Precision.apply_format, bind, Except.bind]
      cases p.1.apply t with
      | error f => rfl
      | ok u =>
        simp only [Except.map, Except.mapError]
        by_cases hpend : p.2 = []
        · obtain rfl : n = (.omitted, []) := by rw [← hn, hpend]; rfl
          have hprecision : p.1 ≠ .omitted := by
            intro homitted
            rw [← hp] at homitted hpend
            exact hwend (readPrecision_omitted homitted ▸ hpend)
          rw [advances_precision hprecision rfl, closeAt, hpend]
          cases p.1.advances <;> rfl
        · rw [closeAt_eq hpend]
          simp only [evalLength_eq, hn]
          by_cases hnend : n.2 = []
          · have hlength : n.1 ≠ .omitted := by
              intro homitted
              rw [← hn] at homitted hnend
              exact hpend (readLength_omitted homitted ▸ hnend)
            rw [advances_length hlength]
            rfl
          · rw [closeAt_eq hnend, closeAt_eq hnend]

end BleFirmware.PrintfSyntax
