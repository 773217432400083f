import BleFirmware.PrintfFormat
import Mathlib.Data.List.TakeWhile

/-!
# The syntax of format strings

A format is a sequence of characters and directives, and at its end maybe a directive
without a specifier. Each part of a directive is as long as it can be, which is
what its closedness says. Every string of characters is the text of exactly one format.
-/

namespace BleFirmware.PrintfSyntax

inductive Flag
  | zeropad
  | left
  | plus
  | space
  | hash
  deriving DecidableEq

namespace Flag

def char : Flag → UInt8
  | zeropad => charOf '0'
  | left => charOf '-'
  | plus => charOf '+'
  | space => charOf ' '
  | hash => charOf '#'

def set (flags : PrintfFlags) : Flag → PrintfFlags
  | zeropad => { flags with zeropad := true }
  | left => { flags with left := true }
  | plus => { flags with plus := true }
  | space => { flags with space := true }
  | hash => { flags with hash := true }

def ofChar (c : UInt8) : Option Flag :=
  if c = charOf '0' then some zeropad
  else if c = charOf '-' then some left
  else if c = charOf '+' then some plus
  else if c = charOf ' ' then some space
  else if c = charOf '#' then some hash
  else none

theorem ofChar_char (f : Flag) : ofChar f.char = some f := by
  cases f <;> decide

theorem char_of_ofChar {c : UInt8} {f : Flag} (h : ofChar c = some f) : f.char = c := by
  unfold ofChar at h
  split_ifs at h with hzero hleft hplus hspace hhash
  all_goals
    obtain rfl := Option.some.inj h
    exact Eq.symm ‹_›

end Flag

inductive Width
  | omitted
  | number (digits : CString)
  | argument
  deriving DecidableEq

inductive Precision
  | omitted
  | empty
  | negative (digits : CString)
  | number (digits : CString)
  | argument
  deriving DecidableEq

inductive Length
  | omitted
  | l
  | ll
  | L
  | h
  | hh
  | t
  | j
  | z
  deriving DecidableEq

def Width.text : Width → CString
  | omitted => []
  | number digits => digits
  | argument => [charOf '*']

def Precision.text : Precision → CString
  | omitted => []
  | empty => [charOf '.']
  | negative digits => charOf '.' :: charOf '-' :: digits
  | number digits => charOf '.' :: digits
  | argument => [charOf '.', charOf '*']

def Length.text : Length → CString
  | omitted => []
  | l => [charOf 'l']
  | ll => [charOf 'l', charOf 'l']
  | L => [charOf 'L']
  | h => [charOf 'h']
  | hh => [charOf 'h', charOf 'h']
  | t => [charOf 't']
  | j => [charOf 'j']
  | z => [charOf 'z']

def Digits (digits : CString) : Prop := ∀ c ∈ digits, isDigit c = true

def Width.Closed (w : Width) (next : CString) : Prop :=
  match w with
  | omitted => isDigit (deref next) = false ∧ deref next ≠ charOf '*'
  | number digits => digits ≠ [] ∧ Digits digits ∧ isDigit (deref next) = false
  | argument => True

def Precision.Closed (p : Precision) (next : CString) : Prop :=
  match p with
  | omitted => deref next ≠ charOf '.'
  | empty => deref next ≠ charOf '-' ∧ isDigit (deref next) = false ∧ deref next ≠ charOf '*'
  | negative digits => Digits digits ∧ isDigit (deref next) = false
  | number digits => digits ≠ [] ∧ Digits digits ∧ isDigit (deref next) = false
  | argument => True

def Length.Closed (n : Length) (next : CString) : Prop :=
  match n with
  | omitted => deref next ∉ "lLhtjz".toList.map charOf
  | l => deref next ≠ charOf 'l'
  | h => deref next ≠ charOf 'h'
  | _ => True

instance (digits : CString) : Decidable (Digits digits) :=
  decidable_of_iff (digits.all isDigit = true) List.all_eq_true

instance (next : CString) : ∀ w : Width, Decidable (w.Closed next)
  | .omitted => inferInstanceAs (Decidable (_ ∧ _))
  | .number _ => inferInstanceAs (Decidable (_ ∧ _ ∧ _))
  | .argument => inferInstanceAs (Decidable True)

instance (next : CString) : ∀ p : Precision, Decidable (p.Closed next)
  | .omitted => inferInstanceAs (Decidable (_ ≠ _))
  | .empty => inferInstanceAs (Decidable (_ ∧ _ ∧ _))
  | .negative _ => inferInstanceAs (Decidable (_ ∧ _))
  | .number _ => inferInstanceAs (Decidable (_ ∧ _ ∧ _))
  | .argument => inferInstanceAs (Decidable True)

instance (next : CString) : ∀ n : Length, Decidable (n.Closed next)
  | .omitted => inferInstanceAs (Decidable (_ ∉ _))
  | .l | .h => inferInstanceAs (Decidable (_ ≠ _))
  | .ll | .L | .hh | .t | .j | .z => inferInstanceAs (Decidable True)

/-- What stands between the percent sign and the specifier. -/
structure Fields where
  flags : List Flag
  width : Width
  precision : Precision
  length : Length
  deriving DecidableEq

namespace Fields

def text (f : Fields) : CString :=
  f.flags.map Flag.char ++ (f.width.text ++ (f.precision.text ++ f.length.text))

structure Closed (f : Fields) (next : CString) : Prop where
  flags : Flag.ofChar (deref (f.width.text ++ (f.precision.text ++ (f.length.text ++ next)))) = none
  width : f.width.Closed (f.precision.text ++ (f.length.text ++ next))
  precision : f.precision.Closed (f.length.text ++ next)
  length : f.length.Closed next

instance (f : Fields) (next : CString) : Decidable (f.Closed next) :=
  decidable_of_iff
    (Flag.ofChar (deref (f.width.text ++ (f.precision.text ++ (f.length.text ++ next)))) = none ∧
      f.width.Closed (f.precision.text ++ (f.length.text ++ next)) ∧
        f.precision.Closed (f.length.text ++ next) ∧ f.length.Closed next)
    ⟨fun h => ⟨h.1, h.2.1, h.2.2.1, h.2.2.2⟩, fun h => ⟨h.flags, h.width, h.precision, h.length⟩⟩

end Fields

inductive Item
  | plain (c : UInt8) (ne : c ≠ charOf '%')
  | directive (fields : Fields) (specifier : UInt8) (closed : fields.Closed [specifier])

def Item.text : Item → CString
  | plain c _ => [c]
  | directive fields specifier _ => charOf '%' :: (fields.text ++ [specifier])

/-- A directive that is cut off by the end of the format. -/
structure Rest where
  fields : Fields
  closed : fields.Closed []

structure Format where
  items : List Item
  rest : Option Rest

namespace Format

def itemsText (items : List Item) : CString := items.flatMap Item.text

def restText : Option Rest → CString
  | none => []
  | some r => charOf '%' :: r.fields.text

def text (f : Format) : CString := itemsText f.items ++ restText f.rest

end Format

def readFlags : CString → List Flag × CString
  | [] => ([], [])
  | c :: s =>
    match Flag.ofChar c with
    | some f => (f :: (readFlags s).1, (readFlags s).2)
    | none => ([], c :: s)

def readWidth (s : CString) : Width × CString :=
  if isDigit (deref s) then (.number (s.takeWhile isDigit), s.dropWhile isDigit)
  else if deref s = charOf '*' then (.argument, s.tail)
  else (.omitted, s)

def readPrecision (s : CString) : Precision × CString :=
  if deref s = charOf '.' then
    if deref s.tail = charOf '-' then
      (.negative (s.tail.tail.takeWhile isDigit), s.tail.tail.dropWhile isDigit)
    else if isDigit (deref s.tail) then
      (.number (s.tail.takeWhile isDigit), s.tail.dropWhile isDigit)
    else if deref s.tail = charOf '*' then (.argument, s.tail.tail)
    else (.empty, s.tail)
  else (.omitted, s)

def readLength (s : CString) : Length × CString :=
  if deref s = charOf 'l' then
    if deref s.tail = charOf 'l' then (.ll, s.tail.tail) else (.l, s.tail)
  else if deref s = charOf 'L' then (.L, s.tail)
  else if deref s = charOf 'h' then
    if deref s.tail = charOf 'h' then (.hh, s.tail.tail) else (.h, s.tail)
  else if deref s = charOf 't' then (.t, s.tail)
  else if deref s = charOf 'j' then (.j, s.tail)
  else if deref s = charOf 'z' then (.z, s.tail)
  else (.omitted, s)

def readFields (s : CString) : Fields × CString :=
  let flags := readFlags s
  let width := readWidth flags.2
  let precision := readPrecision width.2
  let length := readLength precision.2
  (⟨flags.1, width.1, precision.1, length.1⟩, length.2)

variable {s : CString} {c : UInt8}

@[simp] theorem deref_nil : deref [] = 0 := rfl

@[simp] theorem deref_cons : deref (c :: s) = c := rfl

theorem eq_cons_of_deref (h : deref s = c) (hc : c ≠ 0) : s = c :: s.tail := by
  cases s with
  | nil => exact absurd h.symm hc
  | cons d s => rw [← h]; rfl

theorem isDigit_dropWhile (s : CString) : isDigit (deref (s.dropWhile isDigit)) = false := by
  induction s with
  | nil => decide
  | cons c s ih =>
    rw [List.dropWhile_cons]
    split
    · exact ih
    · rename_i h
      exact Bool.eq_false_iff.mpr h

theorem digits_takeWhile (s : CString) : Digits (s.takeWhile isDigit) := fun _ h =>
  List.mem_takeWhile_imp h

theorem takeWhile_digits {digits next : CString} (hd : Digits digits)
    (hn : isDigit (deref next) = false) :
    (digits ++ next).takeWhile isDigit = digits ∧ (digits ++ next).dropWhile isDigit = next := by
  have hstop : next.takeWhile isDigit = [] ∧ next.dropWhile isDigit = next := by
    cases next with
    | nil => exact ⟨rfl, rfl⟩
    | cons c next =>
      rw [deref_cons] at hn
      simp [hn]
  rw [List.takeWhile_append_of_pos hd, List.dropWhile_append_of_pos hd, hstop.1, hstop.2,
    List.append_nil]
  exact ⟨rfl, rfl⟩

theorem text_readFlags (s : CString) : (readFlags s).1.map Flag.char ++ (readFlags s).2 = s := by
  induction s with
  | nil => rfl
  | cons c s ih =>
    rw [readFlags]
    split
    · rename_i f hf
      rw [List.map_cons, List.cons_append, ih, Flag.char_of_ofChar hf]
    · rfl

theorem closed_readFlags (s : CString) : Flag.ofChar (deref (readFlags s).2) = none := by
  induction s with
  | nil => decide
  | cons c s ih =>
    rw [readFlags]
    split
    · exact ih
    · assumption

theorem readFlags_text (flags : List Flag) {next : CString}
    (h : Flag.ofChar (deref next) = none) :
    readFlags (flags.map Flag.char ++ next) = (flags, next) := by
  induction flags with
  | nil =>
    cases next with
    | nil => rfl
    | cons c next =>
      rw [deref_cons] at h
      simp [readFlags, h]
  | cons f flags ih => simp [readFlags, Flag.ofChar_char, ih]

theorem text_readWidth (s : CString) : (readWidth s).1.text ++ (readWidth s).2 = s := by
  unfold readWidth
  split_ifs with hdigit hstar
  · exact List.takeWhile_append_dropWhile
  · exact (eq_cons_of_deref hstar (by decide)).symm
  · rfl

theorem takeWhile_ne_nil (h : isDigit (deref s) = true) : s.takeWhile isDigit ≠ [] := by
  cases s with
  | nil => exact absurd h (by decide)
  | cons c s =>
    rw [deref_cons] at h
    rw [List.takeWhile_cons_of_pos h]
    exact List.cons_ne_nil _ _

theorem closed_readWidth (s : CString) : (readWidth s).1.Closed (readWidth s).2 := by
  unfold readWidth
  split_ifs with hdigit hstar
  · exact ⟨takeWhile_ne_nil hdigit, digits_takeWhile s, isDigit_dropWhile s⟩
  · trivial
  · exact ⟨Bool.eq_false_iff.mpr hdigit, hstar⟩

theorem isDigit_deref {digits : CString} (hne : digits ≠ []) (hd : Digits digits)
    (next : CString) :
    isDigit (deref (digits ++ next)) = true := by
  cases digits with
  | nil => exact absurd rfl hne
  | cons c digits => exact hd c List.mem_cons_self

theorem readWidth_text {w : Width} {next : CString} (h : w.Closed next) :
    readWidth (w.text ++ next) = (w, next) := by
  cases w with
  | omitted => simp [readWidth, Width.text, h.1, h.2]
  | number digits =>
    obtain ⟨hne, hd, hn⟩ := h
    have hspan := takeWhile_digits hd hn
    simp [readWidth, Width.text, isDigit_deref hne hd, hspan.1, hspan.2]
  | argument => rfl

theorem text_readPrecision (s : CString) :
    (readPrecision s).1.text ++ (readPrecision s).2 = s := by
  unfold readPrecision
  split_ifs with hdot hminus hdigit hstar
  · conv_rhs => rw [eq_cons_of_deref hdot (by decide), eq_cons_of_deref hminus (by decide)]
    simp [Precision.text]
  · conv_rhs => rw [eq_cons_of_deref hdot (by decide)]
    simp [Precision.text]
  · conv_rhs => rw [eq_cons_of_deref hdot (by decide), eq_cons_of_deref hstar (by decide)]
    rfl
  · conv_rhs => rw [eq_cons_of_deref hdot (by decide)]
    rfl
  · rfl

theorem closed_readPrecision (s : CString) :
    (readPrecision s).1.Closed (readPrecision s).2 := by
  unfold readPrecision
  split_ifs with hdot hminus hdigit hstar
  · exact ⟨digits_takeWhile _, isDigit_dropWhile _⟩
  · exact ⟨takeWhile_ne_nil hdigit, digits_takeWhile _, isDigit_dropWhile _⟩
  · trivial
  · exact ⟨hminus, Bool.eq_false_iff.mpr hdigit, hstar⟩
  · exact hdot

/-- A digit is none of the characters that are looked for in its place. -/
theorem ne_of_isDigit {d : UInt8} (hc : isDigit c = true) (hd : isDigit d = false) : c ≠ d := by
  rintro rfl
  exact Bool.noConfusion (hc.symm.trans hd)

theorem readPrecision_text {p : Precision} {next : CString} (h : p.Closed next) :
    readPrecision (p.text ++ next) = (p, next) := by
  cases p with
  | omitted =>
    have hdot : deref next ≠ charOf '.' := h
    simp [readPrecision, Precision.text, hdot]
  | empty => simp [readPrecision, Precision.text, h.1, h.2.1, h.2.2]
  | negative digits =>
    have hspan := takeWhile_digits h.1 h.2
    simp [readPrecision, Precision.text, hspan.1, hspan.2]
  | number digits =>
    obtain ⟨hne, hd, hn⟩ := h
    have hspan := takeWhile_digits hd hn
    have hdigit := isDigit_deref hne hd next
    have hminus := ne_of_isDigit (d := charOf '-') hdigit (by decide)
    simp [readPrecision, Precision.text, hdigit, hminus, hspan.1, hspan.2]
  | argument => rfl

theorem text_readLength (s : CString) : (readLength s).1.text ++ (readLength s).2 = s := by
  unfold readLength
  split_ifs with hl hll hL hh hhh ht hj hz
  · conv_rhs => rw [eq_cons_of_deref hl (by decide), eq_cons_of_deref hll (by decide)]
    rfl
  · exact (eq_cons_of_deref hl (by decide)).symm
  · exact (eq_cons_of_deref hL (by decide)).symm
  · conv_rhs => rw [eq_cons_of_deref hh (by decide), eq_cons_of_deref hhh (by decide)]
    rfl
  · exact (eq_cons_of_deref hh (by decide)).symm
  · exact (eq_cons_of_deref ht (by decide)).symm
  · exact (eq_cons_of_deref hj (by decide)).symm
  · exact (eq_cons_of_deref hz (by decide)).symm
  · rfl

theorem closed_readLength (s : CString) : (readLength s).1.Closed (readLength s).2 := by
  unfold readLength
  split_ifs with hl hll hL hh hhh ht hj hz
  · trivial
  · exact hll
  · trivial
  · trivial
  · exact hhh
  · trivial
  · trivial
  · trivial
  · simp [Length.Closed, hl, hL, hh, ht, hj, hz]

theorem readLength_text {n : Length} {next : CString} (h : n.Closed next) :
    readLength (n.text ++ next) = (n, next) := by
  cases n with
  | omitted =>
    simp [Length.Closed] at h
    simp [readLength, Length.text, h]
  | l =>
    have hl : deref next ≠ charOf 'l' := h
    simp [readLength, Length.text, hl]
  | h =>
    have hh : deref next ≠ charOf 'h' := h
    have hne : charOf 'h' ≠ charOf 'l' ∧ charOf 'h' ≠ charOf 'L' := by decide
    simp [readLength, Length.text, hh, hne]
  | _ => rfl

theorem text_readFields (s : CString) : (readFields s).1.text ++ (readFields s).2 = s := by
  simp only [readFields, Fields.text, List.append_assoc, text_readLength, text_readPrecision,
    text_readWidth, text_readFlags]

theorem closed_readFields (s : CString) : (readFields s).1.Closed (readFields s).2 := by
  constructor
  · simp only [readFields, text_readLength, text_readPrecision, text_readWidth]
    exact closed_readFlags s
  · simp only [readFields, text_readLength, text_readPrecision]
    exact closed_readWidth _
  · simp only [readFields, text_readLength]
    exact closed_readPrecision _
  · exact closed_readLength _

theorem readFields_text {f : Fields} {next : CString} (h : f.Closed next) :
    readFields (f.text ++ next) = (f, next) := by
  simp only [readFields, Fields.text, List.append_assoc, readFlags_text _ h.flags,
    readWidth_text h.width, readPrecision_text h.precision, readLength_text h.length]

theorem deref_append_cons (t : CString) (c : UInt8) (s : CString) :
    deref (t ++ c :: s) = deref (t ++ [c]) := by
  cases t <;> rfl

/-- Only the first character behind the fields matters. -/
theorem closed_cons (f : Fields) (c : UInt8) (s : CString) :
    f.Closed (c :: s) ↔ f.Closed [c] := by
  have hlength : f.length.Closed (c :: s) ↔ f.length.Closed [c] := by
    cases f.length <;> rfl
  have hprecision : f.precision.Closed (f.length.text ++ c :: s) ↔
      f.precision.Closed (f.length.text ++ [c]) := by
    cases f.precision <;> simp only [Precision.Closed, deref_append_cons _ c s]
  have hwidth : f.width.Closed (f.precision.text ++ (f.length.text ++ c :: s)) ↔
      f.width.Closed (f.precision.text ++ (f.length.text ++ [c])) := by
    rw [← List.append_assoc, ← List.append_assoc]
    cases f.width <;> simp only [Width.Closed, deref_append_cons _ c s]
  have hflags : deref (f.width.text ++ (f.precision.text ++ (f.length.text ++ c :: s))) =
      deref (f.width.text ++ (f.precision.text ++ (f.length.text ++ [c]))) := by
    simp only [← List.append_assoc]
    exact deref_append_cons _ c s
  constructor
  · rintro ⟨h1, h2, h3, h4⟩
    exact ⟨hflags ▸ h1, hwidth.mp h2, hprecision.mp h3, hlength.mp h4⟩
  · rintro ⟨h1, h2, h3, h4⟩
    exact ⟨hflags.symm ▸ h1, hwidth.mpr h2, hprecision.mpr h3, hlength.mpr h4⟩

theorem text_cons (i : Item) (items : List Item) (rest : Option Rest) :
    Format.text ⟨i :: items, rest⟩ = i.text ++ Format.text ⟨items, rest⟩ := by
  simp [Format.text, Format.itemsText]

theorem text_append (items : List Item) (f : Format) :
    Format.text ⟨items ++ f.items, f.rest⟩ = Format.itemsText items ++ f.text := by
  simp [Format.text, Format.itemsText]

theorem exists_format (s : CString) : ∃ f : Format, f.text = s := by
  induction hn : s.length using Nat.strong_induction_on generalizing s with
  | _ n ih =>
    cases s with
    | nil => exact ⟨⟨[], none⟩, rfl⟩
    | cons c s =>
      rw [List.length_cons] at hn
      by_cases hc : c = charOf '%'
      · have htext := text_readFields s
        have hclosed := closed_readFields s
        subst hc
        cases hrest : (readFields s).2 with
        | nil =>
          rw [hrest] at htext hclosed
          refine ⟨⟨[], some ⟨(readFields s).1, hclosed⟩⟩, ?_⟩
          rw [List.append_nil] at htext
          exact congrArg (charOf '%' :: ·) htext
        | cons d t =>
          rw [hrest] at htext hclosed
          have hlen := congrArg List.length htext
          rw [List.length_append, List.length_cons] at hlen
          obtain ⟨f, rfl⟩ := ih t.length (by omega) t rfl
          refine ⟨⟨.directive (readFields s).1 d ((closed_cons _ _ _).mp hclosed) :: f.items,
            f.rest⟩, ?_⟩
          rw [text_cons]
          conv_rhs => rw [← htext]
          simp [Item.text]
      · obtain ⟨f, rfl⟩ := ih s.length (by omega) s rfl
        exact ⟨⟨.plain c hc :: f.items, f.rest⟩, text_cons _ _ _⟩

theorem item_rest_disjoint {i : Item} {t : CString} {r : Option Rest} :
    i.text ++ t ≠ Format.restText r := by
  intro heq
  cases r with
  | none => cases i <;> simp [Item.text, Format.restText] at heq
  | some r =>
    cases i with
    | plain c ne => exact ne (List.cons.inj heq).1
    | directive fields d closed =>
      have htext : fields.text ++ d :: t = r.fields.text ++ [] := by
        simpa [Item.text, Format.restText] using heq
      have hread := readFields_text ((closed_cons fields d t).mpr closed)
      rw [htext, readFields_text r.closed] at hread
      exact absurd (congrArg Prod.snd hread) (List.cons_ne_nil d t).symm

theorem item_inj {i j : Item} {s t : CString} (h : i.text ++ s = j.text ++ t) :
    i = j ∧ s = t := by
  cases i with
  | plain c ne =>
    cases j with
    | plain d ne' =>
      obtain ⟨rfl, rfl⟩ := List.cons.inj h
      exact ⟨rfl, rfl⟩
    | directive fields d closed => exact absurd (List.cons.inj h).1 ne
  | directive fields c closed =>
    cases j with
    | plain d ne => exact absurd (List.cons.inj h).1.symm ne
    | directive fields' d closed' =>
      have htext : fields.text ++ c :: s = fields'.text ++ d :: t := by
        simpa [Item.text] using h
      have hread := readFields_text ((closed_cons fields c s).mpr closed)
      rw [htext, readFields_text ((closed_cons fields' d t).mpr closed')] at hread
      obtain ⟨rfl, hcons⟩ := Prod.mk.inj hread
      obtain ⟨rfl, rfl⟩ := List.cons.inj hcons
      exact ⟨rfl, rfl⟩

theorem restText_inj {r q : Option Rest} (h : Format.restText r = Format.restText q) : r = q := by
  cases r with
  | none =>
    cases q with
    | none => rfl
    | some q => exact absurd h (List.cons_ne_nil _ _).symm
  | some r =>
    cases q with
    | none => exact absurd h (List.cons_ne_nil _ _)
    | some q =>
      have hread := readFields_text r.closed
      rw [List.append_nil, (List.cons.inj h).2, ← List.append_nil q.fields.text,
        readFields_text q.closed] at hread
      obtain ⟨rf, rc⟩ := r
      obtain ⟨qf, qc⟩ := q
      obtain rfl : qf = rf := congrArg Prod.fst hread
      rfl

theorem text_injective : Function.Injective Format.text := by
  rintro ⟨items, rest⟩ ⟨items', rest'⟩ h
  induction items generalizing items' with
  | nil =>
    cases items' with
    | nil => exact congrArg (Format.mk []) (restText_inj h)
    | cons j items' =>
      rw [text_cons] at h
      exact absurd h.symm item_rest_disjoint
  | cons i items ih =>
    cases items' with
    | nil =>
      rw [text_cons] at h
      exact absurd h item_rest_disjoint
    | cons j items' =>
      rw [text_cons, text_cons] at h
      obtain ⟨rfl, htail⟩ := item_inj h
      obtain ⟨rfl, rfl⟩ := Format.mk.inj (ih _ htail)
      rfl

/-- Each string of characters is the text of exactly one format. -/
theorem existsUnique_format (s : CString) : ∃! f : Format, f.text = s := by
  obtain ⟨f, hf⟩ := exists_format s
  exact ⟨f, hf, fun g hg => text_injective (hg.trans hf.symm)⟩

end BleFirmware.PrintfSyntax
