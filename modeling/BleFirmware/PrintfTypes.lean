import BleFirmware.Base.Tokens
import BleFirmware.PrintfMeaning

/-!
# The arguments that a format asks for

A directive asks for an `int` for each star and for what its specifier and length
convert. A call prints when the arguments begin with those types and the format does
not run past its end; what faults otherwise is told by the format and the types alone.
-/

namespace BleFirmware

inductive ArgType
  | int
  | long
  | longLong
  | double
  | longDouble
  | string
  | pointer
  deriving DecidableEq

def VaArg.type {F : Type} : VaArg F → ArgType
  | int _ => .int
  | long _ => .long
  | longLong _ => .longLong
  | double _ => .double
  | longDouble _ => .longDouble
  | string _ => .string
  | pointer _ => .pointer

namespace PrintfSyntax
open Tokens

variable {F : Type}

def Width.types : Width → List ArgType
  | argument => [.int]
  | _ => []

def Precision.types : Precision → List ArgType
  | argument => [.int]
  | _ => []

def Fields.types (f : Fields) : List ArgType := f.width.types ++ f.precision.types

def Length.integerType : Length → ArgType
  | ll => .longLong
  | j => .longLong
  | l => .long
  | _ => .int

def Length.floatType : Length → ArgType
  | L => .longDouble
  | _ => .double

def Length.countType : Length → CountType
  | l => .long
  | ll => .long
  | h => .short
  | hh => .char
  | j => .longLong
  | _ => .int

def specifierTypes (n : Length) (c : UInt8) : List ArgType :=
  if c ∈ integerSpecifiers then [n.integerType]
  else if c ∈ floatSpecifiers then [n.floatType]
  else if c = charOf 'c' then [.int]
  else if c = charOf 's' then [.string]
  else if c = charOf 'p' then [.pointer]
  else if c = charOf 'n' then [.pointer]
  else []

def Item.types : Item → List ArgType
  | plain _ _ => []
  | directive fields c _ => fields.types ++ specifierTypes fields.length c

def restTypes : Option Rest → List ArgType
  | none => []
  | some r => r.fields.types

def Format.types (f : Format) : List ArgType := f.items.flatMap Item.types ++ restTypes f.rest

structure Unsized (s : Specifier F) : Prop where
  precision_eq : s.flags.precision = false → s.precision = 0
  uppercase : s.flags.uppercase = false
  long : s.flags.long = false
  longLong : s.flags.longLong = false
  longDouble : s.flags.longDouble = false
  pointer : s.flags.pointer = false
  signed : s.flags.signed = false
  short : s.flags.short = false
  char : s.flags.char = false
  adaptExp : s.flags.adaptExp = false

theorem unsized_flags (flags : List Flag) (format : CString) (args : List (VaArg F)) :
    Unsized (F := F) ⟨flags.foldl Flag.set {}, 0, 0, format, args⟩ := by
  suffices h : ∀ start : PrintfFlags, Unsized (F := F) ⟨start, 0, 0, format, args⟩ →
      Unsized (F := F) ⟨flags.foldl Flag.set start, 0, 0, format, args⟩ from
    h _ ⟨fun _ => rfl, rfl, rfl, rfl, rfl, rfl, rfl, rfl, rfl, rfl⟩
  induction flags with
  | nil => exact fun _ h => h
  | cons f flags ih =>
    intro start h
    refine ih _ ?_
    cases f <;> exact ⟨fun _ => rfl, h.uppercase, h.long, h.longLong, h.longDouble, h.pointer,
      h.signed, h.short, h.char, h.adaptExp⟩

theorem Unsized.width {w : Width} {s t : Specifier F} (h : Unsized s) (hw : w.apply s = .ok t) :
    Unsized t := by
  have hleft : Unsized { s with flags := { s.flags with left := true } } :=
    ⟨h.precision_eq, h.uppercase, h.long, h.longLong, h.longDouble, h.pointer, h.signed,
      h.short, h.char, h.adaptExp⟩
  have hset : ∀ (u : Specifier F) (n : UInt32) (args : List (VaArg F)), Unsized u →
      Unsized { u with width := n, args } := fun _ _ _ hu =>
    ⟨hu.precision_eq, hu.uppercase, hu.long, hu.longLong, hu.longDouble, hu.pointer, hu.signed,
      hu.short, hu.char, hu.adaptExp⟩
  cases w with
  | omitted =>
    obtain rfl := Except.ok.inj hw
    exact h
  | number digits =>
    obtain rfl := Except.ok.inj hw
    exact hset s _ s.args h
  | argument =>
    simp only [Width.apply, bind, Except.bind] at hw
    split at hw
    · cases hw
    · split_ifs at hw
      · obtain rfl := Except.ok.inj hw
        exact hset _ _ _ hleft
      · obtain rfl := Except.ok.inj hw
        exact hset _ _ _ h

theorem Unsized.precision {p : Precision} {s t : Specifier F} (h : Unsized s) (hs : s.precision = 0)
    (hp : p.apply s = .ok t) : Unsized t := by
  have hset : ∀ (b : Bool) (n : UInt32) (args : List (VaArg F)), (b = false → n = 0) →
      Unsized { s with flags := { s.flags with precision := b }, precision := n, args } :=
    fun _ _ _ hn =>
      ⟨hn, h.uppercase, h.long, h.longLong, h.longDouble, h.pointer, h.signed, h.short, h.char,
        h.adaptExp⟩
  cases p with
  | omitted =>
    obtain rfl := Except.ok.inj hp
    exact h
  | empty =>
    obtain rfl := Except.ok.inj hp
    exact hset true s.precision s.args nofun
  | negative digits =>
    obtain rfl := Except.ok.inj hp
    exact hset false s.precision s.args fun _ => hs
  | number digits =>
    obtain rfl := Except.ok.inj hp
    exact hset true _ s.args nofun
  | argument =>
    simp only [Precision.apply, bind, Except.bind] at hp
    split at hp
    · cases hp
    · split_ifs at hp
      · obtain rfl := Except.ok.inj hp
        exact hset false s.precision _ fun _ => hs
      · obtain rfl := Except.ok.inj hp
        exact hset true _ _ nofun

theorem width_precision {w : Width} {s t : Specifier F} (hw : w.apply s = .ok t) :
    t.precision = s.precision := by
  cases w with
  | argument =>
    simp only [Width.apply, bind, Except.bind] at hw
    split at hw
    · cases hw
    · split_ifs at hw <;> exact (Except.ok.inj hw) ▸ rfl
  | _ => exact (Except.ok.inj hw) ▸ rfl

theorem apply_unsized {f : Fields} {format : CString} {args : List (VaArg F)} {s : Specifier F}
    (h : f.apply format args = .ok s) :
    ∃ t : Specifier F, Unsized t ∧ s = { t with flags := f.length.apply t.flags } := by
  simp only [Fields.apply, bind, Except.bind] at h
  split at h
  · cases h
  · rename_i u hu
    split at h
    · cases h
    · rename_i t ht
      refine ⟨t, ?_, (Except.ok.inj h).symm⟩
      exact ((unsized_flags f.flags format args).width hu).precision (width_precision hu) ht

theorem vaArg_ok {α : Type} {get : VaArg F → Option α} {args : List (VaArg F)}
    {r : α × List (VaArg F)} (h : vaArg get args = .ok r) :
    ∃ a, args = a :: r.2 ∧ get a = some r.1 := by
  cases args with
  | nil => cases h
  | cons a args =>
    cases hget : get a with
    | none => simp [vaArg, hget] at h
    | some value =>
      rw [vaArg, hget] at h
      obtain rfl := Except.ok.inj h
      exact ⟨a, rfl, hget⟩

theorem takes_vaArg {α : Type} {get : VaArg F → Option α} {t : ArgType}
    (hget : ∀ a, (get a).isSome = true ↔ a.type = t) (args : List (VaArg F)) :
    Takes VaArg.type PrintfFault.argument [t] args Prod.snd (vaArg get args) := by
  cases args with
  | nil => exact ⟨fun h => absurd (List.prefix_nil.mp h) (List.cons_ne_nil _ _), fun _ => rfl⟩
  | cons a args =>
    have hbegins : [t] <+: (a :: args).map VaArg.type ↔ a.type = t := by
      rw [List.map_cons, List.cons_prefix_cons]
      exact ⟨fun h => h.1.symm, fun h => ⟨h.symm, List.nil_prefix⟩⟩
    cases hv : get a with
    | none =>
      have hne : ¬ a.type = t := by
        rw [← hget, hv]
        exact Bool.false_ne_true
      exact ⟨fun h => absurd (hbegins.mp h) hne, fun _ => by simp [vaArg, hv]⟩
    | some v =>
      have heq : a.type = t := by
        rw [← hget, hv]
        rfl
      exact ⟨fun _ => ⟨(v, args), by simp [vaArg, hv], rfl⟩, fun h => absurd (hbegins.mpr heq) h⟩

theorem int_type (a : VaArg F) : a.int?.isSome = true ↔ a.type = .int := by
  cases a <;> simp [VaArg.int?, VaArg.type]

theorem long_type (a : VaArg F) : a.long?.isSome = true ↔ a.type = .long := by
  cases a <;> simp [VaArg.long?, VaArg.type]

theorem longLong_type (a : VaArg F) : a.longLong?.isSome = true ↔ a.type = .longLong := by
  cases a <;> simp [VaArg.longLong?, VaArg.type]

theorem double_type (a : VaArg F) : a.double?.isSome = true ↔ a.type = .double := by
  cases a <;> simp [VaArg.double?, VaArg.type]

theorem longDouble_type (a : VaArg F) : a.longDouble?.isSome = true ↔ a.type = .longDouble := by
  cases a <;> simp [VaArg.longDouble?, VaArg.type]

theorem string_type (a : VaArg F) : a.string?.isSome = true ↔ a.type = .string := by
  cases a <;> simp [VaArg.string?, VaArg.type]

theorem pointer_type (a : VaArg F) : a.pointer?.isSome = true ↔ a.type = .pointer := by
  cases a <;> simp [VaArg.pointer?, VaArg.type]

theorem takes_width (w : Width) (s : Specifier F) :
    Takes VaArg.type PrintfFault.argument w.types s.args Specifier.args (w.apply s) := by
  cases w with
  | argument =>
    refine (takes_vaArg int_type s.args).map fun r _ => ?_
    by_cases hneg : r.1.toInt32 < 0
    · exact ⟨_, if_pos hneg, rfl⟩
    · exact ⟨_, if_neg hneg, rfl⟩
  | _ => exact takes_nil rfl

theorem takes_precision (p : Precision) (s : Specifier F) :
    Takes VaArg.type PrintfFault.argument p.types s.args Specifier.args (p.apply s) := by
  cases p with
  | argument =>
    refine (takes_vaArg int_type s.args).map fun r _ => ?_
    by_cases hneg : r.1.toInt32 < 0
    · exact ⟨_, if_pos hneg, rfl⟩
    · exact ⟨_, if_neg hneg, rfl⟩
  | _ => exact takes_nil rfl

theorem takes_fields (f : Fields) (format : CString) (args : List (VaArg F)) :
    Takes VaArg.type PrintfFault.argument f.types args Specifier.args (f.apply format args) := by
  refine (takes_width f.width ⟨f.flags.foldl Flag.set {}, 0, 0, format, args⟩).bind fun s _ => ?_
  exact (takes_precision f.precision s).map fun t _ => ⟨_, rfl, rfl⟩

def integerType (flags : PrintfFlags) : ArgType :=
  if flags.longLong then .longLong else if flags.long then .long else .int

theorem takes_signed (flags : PrintfFlags) (args : List (VaArg F)) :
    Takes VaArg.type PrintfFault.argument [integerType flags] args Prod.snd
      (signedArgument flags args) := by
  unfold integerType signedArgument
  split_ifs with hlonglong hlong
  · exact (takes_vaArg longLong_type args).map fun r _ => ⟨_, rfl, rfl⟩
  · exact (takes_vaArg long_type args).map fun r _ => ⟨_, rfl, rfl⟩
  all_goals exact (takes_vaArg int_type args).map fun r _ => ⟨_, rfl, rfl⟩

theorem takes_unsigned (flags : PrintfFlags) (args : List (VaArg F)) :
    Takes VaArg.type PrintfFault.argument [integerType flags] args Prod.snd
      (unsignedArgument flags args) := by
  unfold integerType unsignedArgument
  split_ifs with hlonglong hlong
  · exact takes_vaArg longLong_type args
  · exact (takes_vaArg long_type args).map fun r _ => ⟨_, rfl, rfl⟩
  all_goals exact (takes_vaArg int_type args).map fun r _ => ⟨_, rfl, rfl⟩

theorem integerFlags_eq (c : UInt8) (flags : PrintfFlags) :
    integerFlags c flags = { flags with
      signed := if c = charOf 'd' ∨ c = charOf 'i' then true else flags.signed
      hash := if numericBase c = 10 then false else flags.hash
      uppercase := if c = charOf 'X' then true else flags.uppercase
      zeropad := if flags.precision then false else flags.zeropad } := by
  unfold integerFlags
  dsimp only
  split_ifs <;> rfl

theorem integerType_apply (n : Length) {s : Specifier F} (h : Unsized s) (c : UInt8) :
    integerType (integerFlags c (n.apply s.flags)) = n.integerType := by
  rw [integerFlags_eq]
  cases n <;> simp [integerType, Length.apply, Length.integerType, h.long, h.longLong]

theorem countType_apply (n : Length) {s : Specifier F} (h : Unsized s) :
    countType (n.apply s.flags) = n.countType := by
  cases n <;>
    simp [countType, Length.apply, Length.countType, h.long, h.longLong, h.short, h.char]

theorem takes_conversion (fp : FloatingPoint F) (pos : UInt32) (n : Length) (c : UInt8)
    {s : Specifier F} (h : Unsized s) :
    Takes VaArg.type PrintfFault.argument (specifierTypes n c) s.args Printed.args
      (conversion fp pos c { s with flags := n.apply s.flags }) := by
  unfold specifierTypes conversion
  split_ifs with hinteger hfloat hc hs hp hn
  · have htype := integerType_apply n h c
    have htaken : Takes VaArg.type PrintfFault.argument [n.integerType] s.args Prod.snd
        (integerConversion c { s with flags := n.apply s.flags }) := by
      unfold integerConversion
      dsimp only
      split_ifs with hsigned
      · rw [← htype]
        exact (takes_signed _ s.args).map fun r _ => ⟨_, rfl, rfl⟩
      · rw [← htype]
        exact (takes_unsigned _ s.args).map fun r _ => ⟨_, rfl, rfl⟩
    exact htaken.map fun r _ => ⟨_, rfl, rfl⟩
  · have htype : Takes VaArg.type PrintfFault.argument [n.floatType] s.args Prod.snd
        (vaArg (if (n.apply s.flags).longDouble then VaArg.longDouble? else VaArg.double?)
          s.args) := by
      cases n <;> simp only [Length.apply, h.longDouble, Length.floatType, Bool.false_eq_true,
        if_false, if_true]
      all_goals first | exact takes_vaArg longDouble_type s.args | exact takes_vaArg double_type s.args
    have htaken : Takes VaArg.type PrintfFault.argument [n.floatType] s.args Prod.snd
        (floatConversion fp c { s with flags := n.apply s.flags }) := by
      refine htype.map fun r _ => ?_
      dsimp only
      split_ifs <;> exact ⟨_, rfl, rfl⟩
    exact htaken.map fun r _ => ⟨_, rfl, rfl⟩
  · exact (takes_vaArg int_type s.args).map fun r _ => ⟨_, rfl, rfl⟩
  · exact (takes_vaArg string_type s.args).map fun r _ => ⟨_, rfl, rfl⟩
  · exact (takes_vaArg pointer_type s.args).map fun r _ => ⟨_, rfl, rfl⟩
  · exact (takes_vaArg pointer_type s.args).map fun r _ => ⟨_, rfl, rfl⟩
  · exact takes_nil rfl

theorem takes_item (fp : FloatingPoint F) (pos : UInt32) (i : Item) (args : List (VaArg F)) :
    Takes VaArg.type PrintfFault.argument i.types args Printed.args (i.print fp pos args) := by
  cases i with
  | plain c ne => exact takes_nil rfl
  | directive fields c closed =>
    have hspecifier : ∀ s, fields.apply [] args = .ok s →
        Takes VaArg.type PrintfFault.argument (specifierTypes fields.length c) s.args Printed.args
          (conversion fp pos c s) := by
      intro s hs
      obtain ⟨t, ht, rfl⟩ := apply_unsized hs
      have htaken := takes_conversion fp pos fields.length c ht
      exact htaken
    exact (takes_fields fields [] args).bind hspecifier

theorem takes_items (fp : FloatingPoint F) (pos : UInt32) (items : List Item)
    (args : List (VaArg F)) :
    Takes VaArg.type PrintfFault.argument (items.flatMap Item.types) args Printed.args
      (printItems fp pos items args) := by
  induction items generalizing pos args with
  | nil => exact takes_nil rfl
  | cons i items ih =>
    rw [List.flatMap_cons]
    exact (takes_item fp pos i args).bind fun p _ => (ih _ p.args).map fun q _ => ⟨_, rfl, rfl⟩

end PrintfSyntax

end BleFirmware
