import BleFirmware.PrintfTypes
import Mathlib.Logic.Relation

/-!
# The calls of `printf.c`

What a call leaves in a buffer, what it sends to a function, where it faults, and what
becomes of a format that is put together from two.
-/

namespace BleFirmware.PrintfCalls
open OutputGadget PrintfSyntax

variable {F : Type} {fp : FloatingPoint F} {cells : Buffer UInt8} {s : Option ℕ} {n : UInt32}
  {format : CString} {f : Format} {args : List (VaArg F)}

theorem vsnprintfImpl_eq (g : OutputGadget) (f : Format) (args : List (VaArg F)) :
    vsnprintfImpl fp g f.text args = some ((f.print fp g.pos args).map fun p =>
      ⟨appendTerminationWithGadget (g.puts p.text), p.stored, (g.puts p.text).pos.toInt32⟩) := by
  rw [vsnprintfImpl, formatStringLoop_eq]
  cases f.print fp g.pos args <;> rfl

theorem bufferGadget_pos (cells : Buffer UInt8) (s : Option ℕ) (n : UInt32) :
    (bufferGadget cells s n).pos = 0 := by
  cases s <;> rfl

theorem vsnprintf_eq (cells : Buffer UInt8) (s : Option ℕ) (n : UInt32) (f : Format)
    (args : List (VaArg F)) :
    vsnprintf fp cells s n f.text args = some ((f.print fp 0 args).map fun p =>
      ⟨appendTerminationWithGadget ((bufferGadget cells s n).puts p.text), p.stored,
        (UInt32.ofNat p.text.length).toInt32⟩) := by
  rw [vsnprintf, vsnprintfImpl_eq, bufferGadget_pos]
  simp only [puts_pos, bufferGadget_pos, UInt32.zero_add]

theorem vfctprintf_eq (cells : Buffer UInt8) (f : Format) (args : List (VaArg F)) :
    vfctprintf fp cells f.text args = some ((f.print fp 0 args).map fun p =>
      ⟨appendTerminationWithGadget ((functionGadget cells).puts p.text), p.stored,
        (UInt32.ofNat p.text.length).toInt32⟩) := by
  rw [vfctprintf, vsnprintfImpl_eq]
  simp only [puts_pos, functionGadget, UInt32.zero_add]

theorem toInt32_length {k : ℕ} (h : k < 2^31) : (UInt32.ofNat k).toInt32.toInt = k := by
  have hnat : (UInt32.ofNat k).toBitVec.toNat = k := by
    rw [UInt32.toNat_toBitVec, UInt32.toNat_ofNat_of_lt' (h.trans (by decide))]
  have hsmall : 2 * (UInt32.ofNat k).toBitVec.toNat < 2^32 := by omega
  have hint := BitVec.toInt_eq_toNat_of_lt hsmall
  rwa [hnat] at hint

def usableSize (n : UInt32) : ℕ := min n.toNat printfMaxPossibleBufferSize.toNat

theorem bufferGadget_maxChars (cells : Buffer UInt8) (p : ℕ) (n : UInt32) :
    (bufferGadget cells (some p) n).maxChars.toNat = usableSize n := by
  simp only [bufferGadget, usableSize]
  split
  · rename_i h
    have hlt := UInt32.lt_iff_toNat_lt.mp h
    exact (Nat.min_eq_right hlt.le).symm
  · rename_i h
    have hle := Nat.le_of_not_lt (mt UInt32.lt_iff_toNat_lt.mpr h)
    exact (Nat.min_eq_left hle).symm

/-- What fits in front of the last cell, a terminator, and nothing else; the result is
the length of the whole text. -/
theorem vsnprintf_writes {out : Printed F} (hprint : f.print fp 0 args = .ok out)
    (hlen : out.text.length < 2^31) (cells : Buffer UInt8) (p : ℕ) (hn : n ≠ 0) :
    ∃ r, vsnprintf fp cells (some p) n f.text args = some (.ok r) ∧
      r.result.toInt = out.text.length ∧ r.stored = out.stored ∧
      r.output.cells = cells.fill p (out.text.take (usableSize n - 1) ++ [0]) := by
  have hmax := bufferGadget_maxChars cells p n
  have hopen : (bufferGadget cells (some p) n).maxChars ≠ 0 := by
    intro hzero
    rw [hzero] at hmax
    have hpos := toNat_pos hn
    have hroom : 0 < printfMaxPossibleBufferSize.toNat := by decide
    have husable : 0 < usableSize n := Nat.lt_min.mpr ⟨hpos, hroom⟩
    rw [← hmax] at husable
    exact absurd husable (by decide)
  have hcells := terminated_cells out.text (g := bufferGadget cells (some p) n) rfl rfl
    rfl hopen (by omega)
  refine ⟨_, by rw [vsnprintf_eq, hprint]; rfl, toInt32_length hlen, rfl, ?_⟩
  rw [hcells, hmax]
  rfl

theorem vfctprintf_sends {out : Printed F} (hprint : f.print fp 0 args = .ok out)
    (hlen : out.text.length < 2^31) (cells : Buffer UInt8) :
    ∃ r, vfctprintf fp cells f.text args = some (.ok r) ∧ r.output.function = some out.text ∧
      r.output.cells = cells ∧ r.result.toInt = out.text.length ∧ r.stored = out.stored := by
  have hcount : (functionGadget cells).pos.toNat + out.text.length ≤ 2^32 := by
    rw [show (functionGadget cells).pos.toNat = 0 from rfl]
    omega
  obtain ⟨hfun, hcells⟩ := puts_function out.text (g := functionGadget cells) rfl hcount
  have hall : out.text.take ((functionGadget cells).maxChars.toNat -
      (functionGadget cells).pos.toNat) = out.text :=
    List.take_of_length_le (by
      have hmax : (functionGadget cells).maxChars.toNat = 2147483647 := rfl
      have hpos : (functionGadget cells).pos.toNat = 0 := rfl
      omega)
  rw [hall, List.nil_append] at hfun
  have hopen : ((functionGadget cells).puts out.text).function ≠ none ∨
      ((functionGadget cells).puts out.text).maxChars = 0 :=
    Or.inl (by rw [hfun]; exact Option.some_ne_none _)
  refine ⟨_, by rw [vfctprintf_eq, hprint]; rfl, ?_, ?_, toInt32_length hlen, rfl⟩
  · rw [termination_function, hfun]
  · simp only [appendTerminationWithGadget, if_pos hopen, hcells]
    rfl

theorem putchar_grows {g : OutputGadget} {sent : CString} (hf : g.function = some sent)
    (c : UInt8) :
    ∃ sent', (putcharViaGadget g c).function = some sent' ∧ sent.length ≤ sent'.length := by
  by_cases hpos : g.maxChars ≤ g.pos
  · exact ⟨sent, by rw [putchar_beyond hpos, hf], le_rfl⟩
  · obtain ⟨hfun, -⟩ := putchar_function (c := c) (UInt32.not_le.mp hpos) hf
    exact ⟨sent ++ [c], hfun, by rw [List.length_append]; exact Nat.le_add_right _ _⟩

theorem puts_grows (text : CString) {g : OutputGadget} {sent : CString}
    (hf : g.function = some sent) :
    ∃ sent', (g.puts text).function = some sent' ∧ sent.length ≤ sent'.length := by
  induction text generalizing g sent with
  | nil => exact ⟨sent, hf, le_rfl⟩
  | cons c text ih =>
    obtain ⟨mid, hmid, hle⟩ := putchar_grows hf c
    obtain ⟨sent', hsent', hle'⟩ := ih hmid
    exact ⟨sent', hsent', hle.trans hle'⟩

theorem length_of_sent {text sent : CString}
    (hsent : ((functionGadget cells).puts text).function = some sent)
    (hlen : sent.length < printfMaxPossibleBufferSize.toNat) :
    text.length < printfMaxPossibleBufferSize.toNat := by
  by_contra hlong
  have hmax : printfMaxPossibleBufferSize.toNat = 2147483647 := rfl
  have hpos : (functionGadget cells).pos.toNat = 0 := rfl
  have hroom : (functionGadget cells).maxChars.toNat = printfMaxPossibleBufferSize.toNat := rfl
  have hfull : (text.take printfMaxPossibleBufferSize.toNat).length =
      printfMaxPossibleBufferSize.toNat := by
    rw [List.length_take]
    omega
  obtain ⟨hfun, -⟩ := puts_function (text.take printfMaxPossibleBufferSize.toNat)
    (g := functionGadget cells) rfl (by rw [hfull, hpos, hmax]; omega)
  obtain ⟨sent', hsent', hle⟩ := puts_grows (text.drop printfMaxPossibleBufferSize.toNat) hfun
  rw [← puts_append, List.take_append_drop, hsent] at hsent'
  obtain rfl := Option.some.inj hsent'
  have hall : ([] ++ (text.take printfMaxPossibleBufferSize.toNat).take
      ((functionGadget cells).maxChars.toNat - (functionGadget cells).pos.toNat)).length =
        printfMaxPossibleBufferSize.toNat := by
    rw [List.nil_append, List.length_take, hfull, hroom, hpos, Nat.sub_zero, Nat.min_self]
  omega

/-- A buffer gets a beginning of what a function gets, with the same result and the same
counts. -/
theorem vsnprintf_agrees {r : PrintfResult} {cells' : Buffer UInt8} {sent : CString}
    (h : vfctprintf fp cells' format args = some (.ok r)) (hsent : r.output.function = some sent)
    (hlen : sent.length < printfMaxPossibleBufferSize.toNat) (cells : Buffer UInt8) (p : ℕ)
    (hn : n ≠ 0) :
    ∃ r', vsnprintf fp cells (some p) n format args = some (.ok r') ∧ r'.result = r.result ∧
      r'.result.toInt = sent.length ∧ r'.stored = r.stored ∧
      r'.output.cells = cells.fill p (sent.take (usableSize n - 1) ++ [0]) := by
  obtain ⟨f, rfl⟩ := exists_format format
  cases hprint : f.print fp 0 args with
  | error e =>
    rw [vfctprintf_eq, hprint] at h
    cases Option.some.inj h
  | ok out =>
    have hshort : out.text.length < printfMaxPossibleBufferSize.toNat := by
      rw [vfctprintf_eq, hprint] at h
      obtain rfl := Except.ok.inj (Option.some.inj h)
      rw [termination_function] at hsent
      exact length_of_sent hsent hlen
    have hout : out.text.length < 2^31 := hshort.trans (by decide)
    obtain ⟨r₁, hr₁, hfun, -, hresult, hstored⟩ := vfctprintf_sends hprint hout cells'
    rw [h] at hr₁
    obtain rfl := Except.ok.inj (Option.some.inj hr₁)
    rw [hsent] at hfun
    obtain rfl := Option.some.inj hfun
    obtain ⟨r', hr', hresult', hstored', hcells⟩ := vsnprintf_writes hprint hout cells p hn
    exact ⟨r', hr', Int32.toInt_inj.mp (hresult'.trans hresult.symm), hresult',
      hstored'.trans hstored.symm, hcells⟩

def noFloat : FloatingPoint Unit := fun _ _ _ _ _ => []

def numbered : Format :=
  ⟨[.plain (charOf 'n') (by decide),
    .directive ⟨[], .omitted, .omitted, .omitted⟩ (charOf 'd') (by decide)], none⟩

theorem numbered_prints :
    numbered.print noFloat 0 [.int 42] = .ok ⟨"n42".toList.map charOf, [], []⟩ := rfl

theorem vsnprintf_agrees_numbered :
    ∃ r r', vfctprintf noFloat Buffer.empty numbered.text [.int 42] = some (.ok r) ∧
      vsnprintf noFloat Buffer.empty (some 0) 3 numbered.text [.int 42] = some (.ok r') ∧
      r'.result = r.result ∧ r'.result.toInt = 3 ∧ r'.stored = r.stored ∧
      r'.output.cells =
        Buffer.empty.fill 0 (("n42".toList.map charOf).take (usableSize 3 - 1) ++ [0]) := by
  obtain ⟨r, hr, hsent, -⟩ := vfctprintf_sends numbered_prints (by decide) Buffer.empty
  obtain ⟨r', hagrees⟩ := vsnprintf_agrees hr hsent (by decide) Buffer.empty 0 (n := 3) (by decide)
  exact ⟨r, r', hr, hagrees⟩

def Reaches (fp : FloatingPoint F) : PrintfState F → PrintfState F → Prop :=
  Relation.ReflTransGen fun s t => formatStringTurn fp s = .inl t

theorem turn_puts {s t : PrintfState F} (h : formatStringTurn fp s = .inl t) :
    ∃ text, t.output = s.output.puts text := by
  obtain ⟨g, stored, format, args⟩ := s
  obtain ⟨⟨items, rest⟩, rfl⟩ := exists_format format
  cases items with
  | nil =>
    have hturn := turn_rest fp g stored rest args
    have htext : Format.text ⟨[], rest⟩ = Format.restText rest := rfl
    rw [htext, hturn] at h
    cases h
  | cons i items =>
    rw [text_cons, turn_item] at h
    split at h
    · rename_i p hp
      obtain rfl := Sum.inl.inj h
      exact ⟨p.text, rfl⟩
    · cases h

theorem Reaches.puts {s t : PrintfState F} (h : Reaches fp s t) :
    ∃ text, t.output = s.output.puts text := by
  induction h with
  | refl => exact ⟨[], rfl⟩
  | tail _ hturn ih =>
    obtain ⟨text, htext⟩ := ih
    obtain ⟨more, hmore⟩ := turn_puts hturn
    exact ⟨text ++ more, by rw [hmore, htext, puts_append]⟩

/-- Whatever the format and the arguments are, no turn writes outside of the buffer but
through the pointers of `%n`, and neither does the termination. -/
theorem reached_frame {t : PrintfState F}
    (h : Reaches fp ⟨bufferGadget cells s n, [], format, args⟩ t) {i : ℕ}
    (hi : ∀ p ∈ s, ¬ (p ≤ i ∧ i < p + usableSize n)) :
    t.output.cells i = cells i ∧ (appendTerminationWithGadget t.output).cells i = cells i := by
  obtain ⟨text, htext⟩ := h.puts
  have hcells : (bufferGadget cells s n).cells = cells := by cases s <;> rfl
  have hwindow : ∀ p ∈ (bufferGadget cells s n).buffer,
      ¬ (p ≤ i ∧ i < p + (bufferGadget cells s n).maxChars.toNat) := by
    cases s with
    | none => nofun
    | some q =>
      intro p hp
      obtain rfl : q = p := Option.some.inj hp
      rw [bufferGadget_maxChars]
      exact hi q rfl
  have hwindow' : ∀ p ∈ t.output.buffer, ¬ (p ≤ i ∧ i < p + t.output.maxChars.toNat) := by
    rwa [htext, puts_buffer, puts_maxChars]
  have hsame : t.output.cells i = cells i := by
    rw [htext, puts_frame hwindow, hcells]
  exact ⟨hsame, (termination_frame hwindow').trans hsame⟩

theorem reached_frame_numbered :
    ∃ t, Reaches noFloat ⟨bufferGadget Buffer.empty (some 0) 3, [], numbered.text, [.int 42]⟩ t ∧
      t.format.length = 2 ∧ t.output.cells 3 = none ∧
      (appendTerminationWithGadget t.output).cells 3 = none := by
  have hreach : Reaches noFloat
      ⟨bufferGadget Buffer.empty (some 0) 3, [], numbered.text, [.int 42]⟩
      ⟨putcharViaGadget (bufferGadget Buffer.empty (some 0) 3) (charOf 'n'), [],
        numbered.text.tail, [.int 42]⟩ := Relation.ReflTransGen.single rfl
  refine ⟨_, hreach, by decide, reached_frame hreach fun p hp => ?_⟩
  obtain rfl : 0 = p := Option.some.inj hp
  decide

theorem print_append (pos : UInt32) {f : Format} (hf : f.rest = none) (g : Format)
    (args : List (VaArg F)) :
    Format.print fp pos ⟨f.items ++ g.items, g.rest⟩ args = (do
      let p ← f.print fp pos args
      let q ← g.print fp (pos + UInt32.ofNat p.text.length) p.args
      .ok ⟨p.text ++ q.text, p.stored ++ q.stored, q.args⟩) := by
  have hnone : ∀ args : List (VaArg F), printRest none args = .ok () := fun _ => rfl
  simp only [Format.print, printItems_append, hf, hnone, bind, Except.bind]
  cases printItems fp pos f.items args with
  | error e => rfl
  | ok p =>
    dsimp only
    cases printItems fp (pos + UInt32.ofNat p.text.length) g.items p.args with
    | error e => rfl
    | ok q =>
      dsimp only
      cases printRest g.rest q.args <;> rfl

/-- What follows a format that ends outside of a directive goes on from the state, the
count and the arguments that the format leaves. -/
theorem loop_append {f : Format} (hf : f.rest = none) (g : OutputGadget)
    (stored : List WriteBack) (format : CString) (args : List (VaArg F)) :
    formatStringLoop fp ⟨g, stored, f.text ++ format, args⟩ =
      match formatStringLoop fp ⟨g, stored, f.text, args⟩ with
      | some (.ok t) => formatStringLoop fp { t with format }
      | o => o := by
  obtain ⟨h, rfl⟩ := exists_format format
  have htext : f.text = Format.itemsText f.items := by simp [Format.text, hf, Format.restText]
  have hjoin : f.text ++ h.text = Format.text ⟨f.items ++ h.items, h.rest⟩ := by
    rw [text_append, htext]
  rw [hjoin, formatStringLoop_eq, formatStringLoop_eq, print_append g.pos hf]
  simp only [bind, Except.bind]
  cases f.print fp g.pos args with
  | error e => rfl
  | ok p =>
    simp only [Except.map]
    rw [formatStringLoop_eq, puts_pos]
    cases h.print fp (g.pos + UInt32.ofNat p.text.length) p.args <;> simp [Except.map, puts_append]

theorem loop_append_numbered :
    formatStringLoop noFloat
        ⟨bufferGadget Buffer.empty (some 0) 8, [], numbered.text ++ numbered.text, [.int 4, .int 2]⟩ =
      match formatStringLoop noFloat
          ⟨bufferGadget Buffer.empty (some 0) 8, [], numbered.text, [.int 4, .int 2]⟩ with
      | some (.ok t) => formatStringLoop noFloat { t with format := numbered.text }
      | o => o :=
  loop_append rfl _ _ _ _

variable {pos : UInt32} {fields : Fields} {closed : fields.Closed [charOf 'n']}

theorem conversion_count {s : Specifier F} {p : Printed F}
    (h : conversion fp pos (charOf 'n') s = .ok p) :
    ∃ address, s.args.head? = some (.pointer address) ∧
      p.text = [] ∧ p.stored = [writeBack pos s.flags address] := by
  rw [conversion, if_neg (by decide), if_neg (by decide), if_neg (by decide), if_neg (by decide),
    if_neg (by decide), if_pos rfl] at h
  simp only [bind, Except.bind] at h
  split at h
  · cases h
  · rename_i r hr
    obtain rfl := Except.ok.inj h
    obtain ⟨a, hargs, ha⟩ := vaArg_ok hr
    cases a with
    | pointer address =>
      obtain rfl := Option.some.inj ha
      exact ⟨r.1, by rw [hargs]; rfl, rfl, rfl⟩
    | _ => cases ha

def countStore (fields : Fields) (pos address : UInt32) : WriteBack :=
  ⟨fields.length.countType, address, pos.toNat % 2^fields.length.countType.bits⟩

theorem item_count {p : Printed F}
    (h : (Item.directive fields (charOf 'n') closed).print fp pos args = .ok p) :
    ∃ address, args[fields.types.length]? = some (.pointer address) ∧
      p.text = [] ∧ p.stored = [countStore fields pos address] := by
  simp only [Item.print, bind, Except.bind] at h
  split at h
  · cases h
  · rename_i s hs
    have hleft := (takes_fields fields [] args).left_eq hs
    obtain ⟨t, ht, heq⟩ := apply_unsized hs
    obtain ⟨address, hhead, htext, hstored⟩ := conversion_count h
    refine ⟨address, ?_, htext, ?_⟩
    · rwa [hleft, List.head?_drop] at hhead
    · have htype : countType s.flags = fields.length.countType := by
        rw [heq]
        exact countType_apply fields.length ht
      rw [hstored, writeBack, htype, countStore]

theorem items_count {before after : List Item} {out : Printed F}
    (h : printItems fp pos (before ++ .directive fields (charOf 'n') closed :: after) args =
      .ok out) :
    ∃ p address, printItems fp pos before args = .ok p ∧
      args[(before.flatMap Item.types ++ fields.types).length]? = some (.pointer address) ∧
      p.stored ++ [countStore fields (pos + UInt32.ofNat p.text.length) address] <+: out.stored := by
  simp only [printItems_append, printItems, bind, Except.bind] at h
  split at h
  · cases h
  · rename_i p hp
    split at h
    · cases h
    · rename_i q hq
      split at hq
      · cases hq
      · rename_i count hcount
        split at hq
        · cases hq
        · obtain rfl := Except.ok.inj hq
          obtain rfl := Except.ok.inj h
          obtain ⟨address, haddress, -, hstored⟩ := item_count hcount
          have hleft := (takes_items fp pos before args).left_eq hp
          refine ⟨p, address, hp, ?_, ?_⟩
          · rwa [hleft, List.getElem?_drop, ← List.length_append] at haddress
          · dsimp only
            rw [hstored, ← List.append_assoc]
            exact List.prefix_append _ _

/-- The count that a `%n` stores is the result of a call on what stands before it, whatever
the buffers of the two calls are. -/
theorem vsnprintf_count {before after : List Item} {rest : Option Rest} {r : PrintfResult}
    (h : vsnprintf fp cells s n
      (Format.text ⟨before ++ .directive fields (charOf 'n') closed :: after, rest⟩) args =
        some (.ok r)) (cells' : Buffer UInt8) (s' : Option ℕ) (n' : UInt32) :
    ∃ r' address, vsnprintf fp cells' s' n' (Format.text ⟨before, none⟩) args = some (.ok r') ∧
      args[(before.flatMap Item.types ++ fields.types).length]? = some (.pointer address) ∧
      r'.stored ++ [countStore fields r'.result.toUInt32 address] <+: r.stored := by
  cases hprint : Format.print fp 0
      ⟨before ++ .directive fields (charOf 'n') closed :: after, rest⟩ args with
  | error e =>
    rw [vsnprintf_eq, hprint] at h
    cases Option.some.inj h
  | ok out =>
    rw [vsnprintf_eq, hprint] at h
    obtain rfl := Except.ok.inj (Option.some.inj h)
    obtain ⟨p, address, hp, haddress, hstored⟩ := items_count (items_of_print hprint)
    rw [UInt32.zero_add] at hstored
    exact ⟨_, address, by rw [vsnprintf_eq, print_complete, hp]; rfl, haddress, hstored⟩

def counted : Format :=
  ⟨numbered.items ++ [.directive ⟨[], .omitted, .omitted, .hh⟩ (charOf 'n') (by decide)], none⟩

theorem counted_prints : counted.print noFloat 0 [.int 42, .pointer 64] =
    .ok ⟨"n42".toList.map charOf, [⟨.char, 64, 3⟩], []⟩ := rfl

theorem vsnprintf_count_counted :
    ∃ r r' address, vsnprintf noFloat Buffer.empty (some 0) 1 counted.text
        [.int 42, .pointer 64] = some (.ok r) ∧
      vsnprintf noFloat Buffer.empty (some 0) 8 numbered.text [.int 42, .pointer 64] =
        some (.ok r') ∧
      ([.int 42, .pointer 64] : List (VaArg Unit))[1]? = some (.pointer address) ∧
      r'.stored ++ [countStore ⟨[], .omitted, .omitted, .hh⟩ r'.result.toUInt32 address] <+:
        r.stored := by
  obtain ⟨r, hr, -⟩ := vsnprintf_writes counted_prints (by decide) Buffer.empty 0 (n := 1)
    (by decide)
  obtain ⟨r', address, hcount⟩ := vsnprintf_count hr Buffer.empty (some 0) 8
  exact ⟨r, r', address, hr, hcount⟩

end BleFirmware.PrintfCalls
