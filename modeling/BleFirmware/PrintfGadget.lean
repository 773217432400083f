import BleFirmware.LogFormat
import Mathlib.Data.List.Induction

/-!
# The output gadget of `printf.c`

Every character that is printed goes through a gadget, which counts all of them and
keeps those below `max_chars`, in a buffer or by calls of a function. The cells of
the buffer stand for the memory it points into. The counter is an `unsigned int`,
so that a text of 2^32 characters starts again at the front of the buffer.
-/

namespace BleFirmware
open Buffer

def printfMaxPossibleBufferSize : UInt32 := 2147483647

/-- What the function was called with stands for the function. -/
@[ext] structure OutputGadget where
  function : Option CString
  buffer : Option ℕ
  pos : UInt32
  maxChars : UInt32
  cells : Buffer UInt8
  usable : maxChars = 0 ∨ buffer ≠ none ∨ function ≠ none

def putcharViaGadget (g : OutputGadget) (c : UInt8) : OutputGadget :=
  let writePos := g.pos
  let g := { g with pos := g.pos + 1 }
  if writePos ≥ g.maxChars then g
  else
    match g.function with
    | some sent =>
      { g with function := some (sent ++ [c]), usable := Or.inr (Or.inr (Option.some_ne_none _)) }
    | none =>
      match g.buffer with
      | some p => { g with cells := g.cells.fill (p + writePos.toNat) [c] }
      -- excluded by `usable`
      | none => g

def appendTerminationWithGadget (g : OutputGadget) : OutputGadget :=
  if g.function ≠ none ∨ g.maxChars = 0 then g
  else
    match g.buffer with
    | none => g
    | some p =>
      let nullCharPos := if g.pos < g.maxChars then g.pos else g.maxChars - 1
      { g with cells := g.cells.fill (p + nullCharPos.toNat) [0] }

def discardingGadget (cells : Buffer UInt8) : OutputGadget :=
  ⟨none, none, 0, 0, cells, Or.inl rfl⟩

def bufferGadget (cells : Buffer UInt8) (buffer : Option ℕ) (bufferSize : UInt32) : OutputGadget :=
  let usableBufferSize :=
    if bufferSize > printfMaxPossibleBufferSize then printfMaxPossibleBufferSize else bufferSize
  match buffer with
  | some p => ⟨none, some p, 0, usableBufferSize, cells, Or.inr (Or.inl (Option.some_ne_none p))⟩
  | none => discardingGadget cells

def functionGadget (cells : Buffer UInt8) : OutputGadget :=
  ⟨some [], none, 0, printfMaxPossibleBufferSize, cells, Or.inr (Or.inr (Option.some_ne_none _))⟩

namespace OutputGadget

def puts (g : OutputGadget) (text : CString) : OutputGadget := text.foldl putcharViaGadget g

variable {g : OutputGadget} {c : UInt8} {text : CString}

theorem puts_nil : g.puts [] = g := rfl

theorem puts_cons : g.puts (c :: text) = (putcharViaGadget g c).puts text := rfl

theorem puts_append (xs ys : CString) : g.puts (xs ++ ys) = (g.puts xs).puts ys :=
  List.foldl_append

theorem puts_concat : g.puts (text ++ [c]) = putcharViaGadget (g.puts text) c :=
  puts_append text [c]

theorem putchar_pos : (putcharViaGadget g c).pos = g.pos + 1 := by
  unfold putcharViaGadget
  dsimp only
  split
  · rfl
  · split
    · rfl
    · split <;> rfl

theorem putchar_buffer : (putcharViaGadget g c).buffer = g.buffer := by
  unfold putcharViaGadget
  dsimp only
  split
  · rfl
  · split
    · rfl
    · split <;> rfl

theorem putchar_maxChars : (putcharViaGadget g c).maxChars = g.maxChars := by
  unfold putcharViaGadget
  dsimp only
  split
  · rfl
  · split
    · rfl
    · split <;> rfl

theorem putchar_beyond (h : g.maxChars ≤ g.pos) :
    putcharViaGadget g c = { g with pos := g.pos + 1 } :=
  if_pos h

theorem putchar_function {sent : CString} (h : g.pos < g.maxChars) (hf : g.function = some sent) :
    (putcharViaGadget g c).function = some (sent ++ [c]) ∧
      (putcharViaGadget g c).cells = g.cells := by
  have hin : ¬ g.pos ≥ g.maxChars := UInt32.not_le.mpr h
  simp only [putcharViaGadget, if_neg hin, hf, and_self]

theorem putchar_cells {p : ℕ} (h : g.pos < g.maxChars) (hf : g.function = none)
    (hb : g.buffer = some p) :
    (putcharViaGadget g c).function = none ∧
      (putcharViaGadget g c).cells = g.cells.fill (p + g.pos.toNat) [c] := by
  have hin : ¬ g.pos ≥ g.maxChars := UInt32.not_le.mpr h
  simp only [putcharViaGadget, if_neg hin, hf, hb, and_self]

theorem putchar_frame {i : ℕ} (h : ∀ p ∈ g.buffer, ¬ (p ≤ i ∧ i < p + g.maxChars.toNat)) :
    (putcharViaGadget g c).cells i = g.cells i := by
  by_cases hpos : g.maxChars ≤ g.pos
  · rw [putchar_beyond hpos]
  · have hlt : g.pos < g.maxChars := UInt32.not_le.mp hpos
    cases hf : g.function with
    | some sent => rw [(putchar_function hlt hf).2]
    | none =>
      cases hb : g.buffer with
      | none =>
        obtain hzero | hbuffer | hfunction := g.usable
        · rw [hzero] at hlt
          exact absurd hlt (UInt32.not_lt.mpr (UInt32.zero_le))
        · exact absurd hb hbuffer
        · exact absurd hf hfunction
      | some p =>
        have hwindow := h p hb
        have hlt' : g.pos.toNat < g.maxChars.toNat := UInt32.lt_iff_toNat_lt.mp hlt
        rw [(putchar_cells hlt hf hb).2]
        exact if_neg (by simp only [List.length_singleton]; omega)

theorem puts_pos : (g.puts text).pos = g.pos + UInt32.ofNat text.length := by
  induction text generalizing g with
  | nil => simp [puts_nil]
  | cons c text ih =>
    rw [puts_cons, ih, putchar_pos, List.length_cons, UInt32.ofNat_add, UInt32.add_assoc,
      UInt32.add_comm 1]
    rfl

theorem puts_buffer : (g.puts text).buffer = g.buffer := by
  induction text generalizing g with
  | nil => rfl
  | cons c text ih => rw [puts_cons, ih, putchar_buffer]

theorem puts_maxChars : (g.puts text).maxChars = g.maxChars := by
  induction text generalizing g with
  | nil => rfl
  | cons c text ih => rw [puts_cons, ih, putchar_maxChars]

theorem puts_frame {i : ℕ} (h : ∀ p ∈ g.buffer, ¬ (p ≤ i ∧ i < p + g.maxChars.toNat)) :
    (g.puts text).cells i = g.cells i := by
  induction text generalizing g with
  | nil => rfl
  | cons c text ih =>
    have hnext : ∀ p ∈ (putcharViaGadget g c).buffer,
        ¬ (p ≤ i ∧ i < p + (putcharViaGadget g c).maxChars.toNat) := by
      rwa [putchar_buffer, putchar_maxChars]
    rw [puts_cons, ih hnext, putchar_frame h]

theorem toNat_pos {n : UInt32} (h : n ≠ 0) : 0 < n.toNat :=
  Nat.pos_of_ne_zero fun hzero => h (UInt32.toNat_inj.mp hzero)

theorem toNat_pred {n : UInt32} (h : n ≠ 0) : (n-1).toNat = n.toNat - 1 := by
  have hle : 1 ≤ n := UInt32.le_iff_toNat_le.mpr (toNat_pos h)
  rw [UInt32.toNat_sub_of_le _ _ hle]
  rfl

theorem toNat_puts_pos (hcount : g.pos.toNat + text.length < 2^32) :
    (g.puts text).pos.toNat = g.pos.toNat + text.length := by
  rw [puts_pos, UInt32.toNat_add, UInt32.toNat_ofNat']
  omega

theorem take_concat (xs : CString) (c : UInt8) (n : ℕ) :
    (xs ++ [c]).take n = if xs.length < n then xs.take n ++ [c] else xs.take n := by
  split
  · rename_i h
    have hle : (xs ++ [c]).length ≤ n := by rwa [List.length_append]
    rw [List.take_of_length_le hle, List.take_of_length_le h.le]
  · rename_i h
    exact List.take_append_of_le_length (Nat.le_of_not_lt h)

theorem puts_cells (text : CString) {p : ℕ} (hf : g.function = none) (hb : g.buffer = some p)
    (hcount : g.pos.toNat + text.length ≤ 2^32) :
    (g.puts text).function = none ∧
      (g.puts text).cells =
        g.cells.fill (p + g.pos.toNat) (text.take (g.maxChars.toNat - g.pos.toNat)) := by
  induction text using List.reverseRecOn with
  | nil => exact ⟨hf, by rw [List.take_nil, fill_nil, puts_nil]⟩
  | append_singleton text c ih =>
    rw [List.length_append, List.length_singleton] at hcount
    obtain ⟨hfun, hcells⟩ := ih (by omega)
    have hpos : (g.puts text).pos.toNat = g.pos.toNat + text.length := toNat_puts_pos (by omega)
    have hbuffer : (g.puts text).buffer = some p := puts_buffer.trans hb
    have hmax : (g.puts text).maxChars = g.maxChars := puts_maxChars
    rw [puts_concat, take_concat]
    by_cases hin : text.length < g.maxChars.toNat - g.pos.toNat
    · have hlt : (g.puts text).pos < (g.puts text).maxChars := by
        rw [UInt32.lt_iff_toNat_lt, hpos, hmax]
        omega
      obtain ⟨hfun', hcells'⟩ := putchar_cells (c := c) hlt hfun hbuffer
      refine ⟨hfun', ?_⟩
      rw [hcells', hcells, hpos, if_pos hin, List.take_of_length_le hin.le, ← Nat.add_assoc,
        fill_append]
    · have hle : (g.puts text).maxChars ≤ (g.puts text).pos := by
        rw [UInt32.le_iff_toNat_le, hpos, hmax]
        omega
      rw [putchar_beyond hle, if_neg hin]
      exact ⟨hfun, hcells⟩

theorem puts_function (text : CString) {sent : CString} (hf : g.function = some sent)
    (hcount : g.pos.toNat + text.length ≤ 2^32) :
    (g.puts text).function = some (sent ++ text.take (g.maxChars.toNat - g.pos.toNat)) ∧
      (g.puts text).cells = g.cells := by
  induction text using List.reverseRecOn with
  | nil => exact ⟨by rw [List.take_nil, List.append_nil, puts_nil, hf], rfl⟩
  | append_singleton text c ih =>
    rw [List.length_append, List.length_singleton] at hcount
    obtain ⟨hfun, hcells⟩ := ih (by omega)
    have hpos : (g.puts text).pos.toNat = g.pos.toNat + text.length := toNat_puts_pos (by omega)
    have hmax : (g.puts text).maxChars = g.maxChars := puts_maxChars
    rw [puts_concat, take_concat]
    by_cases hin : text.length < g.maxChars.toNat - g.pos.toNat
    · have hlt : (g.puts text).pos < (g.puts text).maxChars := by
        rw [UInt32.lt_iff_toNat_lt, hpos, hmax]
        omega
      obtain ⟨hfun', hcells'⟩ := putchar_function (c := c) hlt hfun
      rw [hfun', hcells', if_pos hin, List.append_assoc]
      exact ⟨rfl, hcells⟩
    · have hle : (g.puts text).maxChars ≤ (g.puts text).pos := by
        rw [UInt32.le_iff_toNat_le, hpos, hmax]
        omega
      rw [putchar_beyond hle, if_neg hin]
      exact ⟨hfun, hcells⟩

theorem termination_function : (appendTerminationWithGadget g).function = g.function := by
  unfold appendTerminationWithGadget
  split
  · rfl
  · split <;> rfl

theorem termination_cells {p : ℕ} (hf : g.function = none) (hb : g.buffer = some p)
    (hmax : g.maxChars ≠ 0) :
    (appendTerminationWithGadget g).cells =
      g.cells.fill (p + (if g.pos < g.maxChars then g.pos else g.maxChars - 1).toNat) [0] := by
  have hopen : ¬ (g.function ≠ none ∨ g.maxChars = 0) := by simp [hf, hmax]
  simp only [appendTerminationWithGadget, if_neg hopen, hb]

theorem termination_frame {i : ℕ} (h : ∀ p ∈ g.buffer, ¬ (p ≤ i ∧ i < p + g.maxChars.toNat)) :
    (appendTerminationWithGadget g).cells i = g.cells i := by
  by_cases hclosed : g.function ≠ none ∨ g.maxChars = 0
  · rw [appendTerminationWithGadget, if_pos hclosed]
  · obtain ⟨hf, hmax⟩ := not_or.mp hclosed
    cases hb : g.buffer with
    | none => simp only [appendTerminationWithGadget, if_neg hclosed, hb]
    | some p =>
      have hwindow := h p hb
      have hroom : 0 < g.maxChars.toNat := toNat_pos hmax
      rw [termination_cells (not_not.mp hf) hb hmax]
      refine if_neg ?_
      rw [List.length_singleton]
      split
      · rename_i hlt
        have hlt' : g.pos.toNat < g.maxChars.toNat := UInt32.lt_iff_toNat_lt.mp hlt
        omega
      · rw [toNat_pred hmax]
        omega

/-- A whole text and its termination: what fits in front of the last cell of the window,
and a zero. -/
theorem terminated_cells (text : CString) {p : ℕ} (hf : g.function = none) (hb : g.buffer = some p)
    (hpos : g.pos = 0) (hmax : g.maxChars ≠ 0) (hcount : text.length < 2^32) :
    (appendTerminationWithGadget (g.puts text)).cells =
      g.cells.fill p (text.take (g.maxChars.toNat - 1) ++ [0]) := by
  have hzero : g.pos.toNat = 0 := by rw [hpos]; rfl
  have hroom : 0 < g.maxChars.toNat := toNat_pos hmax
  obtain ⟨hfun, hcells⟩ := puts_cells text hf hb (by omega)
  have hbuffer : (g.puts text).buffer = some p := puts_buffer.trans hb
  have hlen : (g.puts text).pos.toNat = text.length := by
    rw [toNat_puts_pos (by omega), hzero, Nat.zero_add]
  rw [hzero, Nat.add_zero, Nat.sub_zero] at hcells
  rw [termination_cells hfun hbuffer (by rwa [puts_maxChars]), hcells, puts_maxChars]
  by_cases hin : text.length < g.maxChars.toNat
  · have hlt : (g.puts text).pos < g.maxChars := by
      rwa [UInt32.lt_iff_toNat_lt, hlen]
    rw [if_pos hlt, hlen, List.take_of_length_le hin.le, List.take_of_length_le (by omega),
      fill_append]
  · have hle : ¬ (g.puts text).pos < g.maxChars := by
      rw [UInt32.lt_iff_toNat_lt, hlen]
      exact hin
    have hfull : (text.take (g.maxChars.toNat - 1)).length = g.maxChars.toNat - 1 := by
      rw [List.length_take]
      omega
    have hsplit : text.take g.maxChars.toNat =
        text.take (g.maxChars.toNat - 1) ++ (text.drop (g.maxChars.toNat - 1)).take 1 ++ [] := by
      rw [List.append_nil, ← List.take_add, Nat.sub_add_cancel hroom]
    have hone : ((text.drop (g.maxChars.toNat - 1)).take 1).length = [(0 : UInt8)].length := by
      rw [List.length_take, List.length_drop, List.length_singleton]
      omega
    have hpatch := fill_patch (b := g.cells) (p := p) (text.take (g.maxChars.toNat - 1)) hone []
    rw [hfull, List.append_nil (_ ++ [0])] at hpatch
    rw [if_neg hle, toNat_pred hmax, hsplit, hpatch]

end OutputGadget

end BleFirmware
