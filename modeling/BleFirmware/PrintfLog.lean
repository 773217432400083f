import BleFirmware.PrintfCalls

/-!
# The log over `printf.c`

The formatter of the log lines is the `vsnprintf_` of the library. What its model gives
for a format and its arguments makes it a formatter as the log assumes one, and a body
that is formatted is the one that the call leaves in the buffer.
-/

namespace BleFirmware.PrintfSyntax

variable {F : Type} {fp : FloatingPoint F}

noncomputable def Format.ofText (s : CString) : Format := (exists_format s).choose

theorem text_ofText (s : CString) : (Format.ofText s).text = s := (exists_format s).choose_spec

theorem ofText_text (f : Format) : Format.ofText f.text = f :=
  text_injective (text_ofText f.text)

theorem exists_plain {s : CString} (h : charOf '%' ∉ s) :
    ∃ items : List Item, Format.text ⟨items, none⟩ = s ∧
      ∀ (fp : FloatingPoint F) pos args, printItems fp pos items args = .ok ⟨s, [], args⟩ := by
  induction s with
  | nil => exact ⟨[], rfl, fun _ _ _ => rfl⟩
  | cons c s ih =>
    rw [List.mem_cons, not_or] at h
    obtain ⟨hc, hs⟩ := h
    obtain ⟨items, htext, hprint⟩ := ih hs
    refine ⟨.plain c (Ne.symm hc) :: items, ?_, fun fp pos args => ?_⟩
    · rw [text_cons, htext]
      rfl
    · simp only [printItems, Item.print, hprint, bind, Except.bind]
      rfl

theorem print_plain {s : CString} (h : charOf '%' ∉ s) (fp : FloatingPoint F) (pos : UInt32)
    (args : List (VaArg F)) : (Format.ofText s).print fp pos args = .ok ⟨s, [], args⟩ := by
  obtain ⟨items, rfl, hprint⟩ := exists_plain (F := F) h
  rw [ofText_text, Format.print, hprint]
  rfl

noncomputable def libraryPrintf (fp : FloatingPoint F) : Printf (List (VaArg F)) where
  text format args :=
    match (Format.ofText format).print fp 0 args with
    | .ok p => p.text
    | .error _ => []
  text_plain format args h := by
    rw [print_plain h]

end BleFirmware.PrintfSyntax

namespace BleFirmware.PrintfLog
open PrintfSyntax PrintfCalls

variable {F : Type} {fp : FloatingPoint F} {format : CString} {args : List (VaArg F)}

theorem libraryPrintf_text (f : Format) {out : Printed F} (h : f.print fp 0 args = .ok out) :
    (libraryPrintf fp).text f.text args = out.text := by
  simp only [libraryPrintf, ofText_text, h]

/-- A body of the log is what the call of the library leaves behind the offset; the length
is what it returns, cut to 16 bits. -/
theorem logFormatStringArgs_library {f : Format} (hpercent : charOf '%' ∈ f.text)
    {out : Printed F} (hprint : f.print fp 0 args = .ok out) (hlen : out.text.length < 2^31)
    (b : Buffer UInt8) (offset : ℕ) :
    ∃ r, vsnprintf fp b (some (min offset logPrependSizeMax)) (UInt32.ofNat logContentSizeMax)
        f.text args = some (.ok r) ∧
      logFormatStringArgs (libraryPrintf fp) f.text args b offset =
        (r.output.cells, toUint16 r.result.toInt.toNat) := by
  have htext := libraryPrintf_text f hprint
  obtain ⟨r, hr, hresult, -, hcells⟩ := vsnprintf_writes hprint hlen b
    (min offset logPrependSizeMax) (n := UInt32.ofNat logContentSizeMax) (by decide)
  have husable : usableSize (UInt32.ofNat logContentSizeMax) = logContentSizeMax := by decide
  refine ⟨r, hr, ?_⟩
  rw [husable] at hcells
  rw [logFormatStringArgs, if_pos hpercent]
  simp only [Printf.vsnprintf, htext, hcells, hresult, Int.toNat_natCast]

theorem logFormatStringArgs_library_numbered :
    ∃ r, vsnprintf noFloat Buffer.empty (some (min 7 logPrependSizeMax))
        (UInt32.ofNat logContentSizeMax) numbered.text [.int 42] = some (.ok r) ∧
      logFormatStringArgs (libraryPrintf noFloat) numbered.text [.int 42] Buffer.empty 7 =
        (r.output.cells, toUint16 r.result.toInt.toNat) :=
  logFormatStringArgs_library (by decide) numbered_prints (by decide) Buffer.empty 7

/-- A format without a percent sign is copied and not handed to the library. The body is
the same as the library's exactly when its length, cut to 16 bits, is below the limit that
the library is given. -/
theorem plain_agrees_iff {Args : Type} (printf : Printf Args) (logArgs : Args)
    (hplain : charOf '%' ∉ format) (hzero : 0 ∉ format) (hlen : format.length < 2^31)
    (b : Buffer UInt8) (offset : ℕ) {r : PrintfResult}
    (hr : vsnprintf fp b (some (min offset logPrependSizeMax)) (UInt32.ofNat logContentSizeMax)
      format args = some (.ok r)) :
    let t := logFormatStringArgs printf format logArgs b offset
    let p := min offset logPrependSizeMax
    (t.2 = toUint16 r.result.toInt.toNat ∧ t.1.cells p t.2 = r.output.cells.cells p t.2) ↔
      format.length % 65536 < logContentSizeMax := by
  intro t p
  have hprint := print_plain hplain fp 0 args
  obtain ⟨r', hr', hresult, -, hcells⟩ := vsnprintf_writes hprint hlen b p
    (n := UInt32.ofNat logContentSizeMax) (by decide)
  have husable : usableSize (UInt32.ofNat logContentSizeMax) = logContentSizeMax := by decide
  rw [text_ofText] at hr'
  obtain rfl : r = r' := Except.ok.inj (Option.some.inj (hr.symm.trans hr'))
  have ht : t = (b.fill p (format.take (format.length % 65536)), format.length % 65536) :=
    if_neg hplain
  have hmod : format.length % 65536 ≤ format.length := Nat.mod_le _ _
  have htake : (format.take (format.length % 65536)).length = format.length % 65536 := by
    rw [List.length_take]
    omega
  have hbody := Buffer.cells_fill_take htake.ge b p
  rw [List.take_take, Nat.min_self] at hbody
  rw [husable, logContentSizeMax_eq] at hcells
  rw [ht, hcells, hresult, logContentSizeMax_eq]
  dsimp only
  rw [hbody]
  constructor
  · rintro ⟨-, hsame⟩
    by_contra hlong
    -- at the end of the limit the library has its terminator
    have hfirst : (format.take 329).length = 329 := by
      rw [List.length_take]
      omega
    have hlast := congrArg (fun l => l[329]?) hsame
    have hin : 329 < format.length % 65536 := by omega
    have hend : (format.take 329 ++ [(0 : UInt8)])[329]? = some 0 := by
      rw [List.getElem?_append_right hfirst.le, hfirst]
      rfl
    have hcell : b.fill p (format.take 329 ++ [(0 : UInt8)]) (p+329) =
        (format.take 329 ++ [(0 : UInt8)])[329]? :=
      Buffer.fill_inside (by rw [List.length_append, hfirst]; decide)
    have hlt : 329 < format.length := by omega
    simp only [Buffer.cells, List.getElem?_map, List.getElem?_take, if_pos hin,
      List.getElem?_range hin, Option.map_some] at hlast
    have hcell' : (b.fill p (format.take (330 - 1) ++ [0])) (p + 329) = some 0 :=
      hcell.trans hend
    rw [hcell', List.getElem?_eq_getElem hlt, Option.map_some] at hlast
    exact hzero (Option.some.inj (Option.some.inj hlast) ▸ List.getElem_mem hlt)
  · intro hshort
    refine ⟨by simp [toUint16], ?_⟩
    rw [Buffer.cells_fill_take (by rw [List.length_append, List.length_take, List.length_singleton]; omega),
      List.take_append_of_le_length (by rw [List.length_take]; omega), List.take_take,
      Nat.min_eq_left (by omega)]

end BleFirmware.PrintfLog
