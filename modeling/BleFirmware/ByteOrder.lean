import BleFirmware.Base.Bytes
import Mathlib.Logic.Function.Basic

/-!
# The byte-order macros of `util_tool.h`

An array is the memory from its first byte on, and `array + 2` the memory two bytes
later. The arithmetic is that of `int`, whose shift into the sign bit is taken as
the shift of the 32-bit word, and a cast keeps the low bits.

A codec places the bytes of a number in some order; it round-trips when the order
that it reads undoes the one that it writes.
-/

namespace BleFirmware.ByteOrder
open Bytes Bytes.Layout

def u16DecodeBe (array : Memory) : UInt16 :=
  UInt16.ofNat (((array 0).toNat <<< 8 &&& 0xFF00) + (array 1).toNat)

def u16DecodeLe (array : Memory) : UInt16 :=
  UInt16.ofNat (((array 1).toNat <<< 8 &&& 0xFF00) + (array 0).toNat)

def u32DecodeBe (array : Memory) : UInt32 :=
  UInt32.ofNat ((u16DecodeBe array).toNat <<< 16) + (u16DecodeBe fun i => array (i+2)).toUInt32

def u32DecodeLe (array : Memory) : UInt32 :=
  UInt32.ofNat ((u16DecodeLe array).toNat <<< 16) + (u16DecodeLe fun i => array (i+2)).toUInt32

def byteOf (val shift : ℕ) : UInt8 := UInt8.ofNat (val >>> shift &&& 0xFF)

def u16EncodeBe (val : UInt16) (array : Memory) : Memory :=
  let array := Function.update array 0 (byteOf val.toNat 8)
  Function.update array 1 (byteOf val.toNat 0)

def u16EncodeLe (val : UInt16) (array : Memory) : Memory :=
  let array := Function.update array 1 (byteOf val.toNat 8)
  Function.update array 0 (byteOf val.toNat 0)

def u32EncodeBe (val : UInt32) (array : Memory) : Memory :=
  let array := Function.update array 0 (byteOf val.toNat 24)
  let array := Function.update array 1 (byteOf val.toNat 16)
  let array := Function.update array 2 (byteOf val.toNat 8)
  Function.update array 3 (byteOf val.toNat 0)

def u32EncodeLe (val : UInt32) (array : Memory) : Memory :=
  let array := Function.update array 3 (byteOf val.toNat 24)
  let array := Function.update array 2 (byteOf val.toNat 16)
  let array := Function.update array 1 (byteOf val.toNat 8)
  Function.update array 0 (byteOf val.toNat 0)

structure Codec (T : Type*) where
  size : ℕ
  decode : Memory → T
  encode : T → Memory → Memory

namespace Codec

variable {T : Type*} (c : Codec T)

/-- Reading what was written gives the value, and writing what was read, anywhere,
gives the bytes. -/
def RoundTrips (v : T) (array dest : Memory) : Prop :=
  c.decode (c.encode v dest) = v ∧
    firstBytes (c.encode (c.decode array) dest) c.size = firstBytes array c.size

/-- The bytes are read in the order `d` and written in the order `e`, the lowest one
first. -/
structure Places (toNat : T → ℕ) (d e : List UInt8 → List UInt8) : Prop where
  inj : Function.Injective toNat
  lt : ∀ v, toNat v < 256^c.size
  decode_eq : ∀ array, toNat (c.decode array) = leValue (d (firstBytes array c.size))
  encode_eq : ∀ v dest, firstBytes (c.encode v dest) c.size = e (leBytes c.size (toNat v))
  length_d : ∀ bs, (d bs).length = bs.length

variable {c} {toNat : T → ℕ} {d e : List UInt8 → List UInt8}

theorem Places.roundTrips_iff (h : c.Places toNat d e) (v : T) (array dest : Memory) :
    c.RoundTrips v array dest ↔
      d (e (leBytes c.size (toNat v))) = leBytes c.size (toNat v) ∧
        e (d (firstBytes array c.size)) = firstBytes array c.size := by
  have hread : leBytes c.size (toNat (c.decode array)) = d (firstBytes array c.size) := by
    have hlen : (d (firstBytes array c.size)).length = c.size := by
      rw [h.length_d, length_firstBytes]
    have hbytes := leBytes_leValue (d (firstBytes array c.size))
    rwa [hlen, ← h.decode_eq] at hbytes
  unfold RoundTrips
  rw [h.encode_eq, hread]
  refine and_congr_left fun _ => ?_
  have hlen : (d (e (leBytes c.size (toNat v)))).length = (leBytes c.size (toNat v)).length := by
    rw [h.length_d, ← h.encode_eq v dest, length_firstBytes, length_leBytes]
  rw [← h.inj.eq_iff, h.decode_eq, h.encode_eq]
  constructor
  · intro hvalue
    refine leValue_inj ?_ hlen
    rw [hvalue, leValue_leBytes c.size (h.lt v)]
  · intro hbytes
    rw [hbytes, leValue_leBytes c.size (h.lt v)]

theorem Places.roundTrips (h : c.Places toNat d e) (hde : ∀ bs, d (e bs) = bs)
    (hed : ∀ bs, e (d bs) = bs) (v : T) (array dest : Memory) : c.RoundTrips v array dest :=
  (h.roundTrips_iff v array dest).mpr ⟨hde _, hed _⟩

end Codec

def u16Be : Codec UInt16 := ⟨2, u16DecodeBe, u16EncodeBe⟩

def u16Le : Codec UInt16 := ⟨2, u16DecodeLe, u16EncodeLe⟩

def u32Be : Codec UInt32 := ⟨4, u32DecodeBe, u32EncodeBe⟩

def u32Le : Codec UInt32 := ⟨4, u32DecodeLe, u32EncodeLe⟩

theorem byteOf_eq (val shift : ℕ) : byteOf val shift = UInt8.ofNat (val / 2^shift) := by
  have hmask : val >>> shift &&& 0xFF = val / 2^shift % 256 := by
    rw [Nat.shiftRight_eq_div_pow]
    exact Nat.and_two_pow_sub_one_eq_mod _ 8
  refine UInt8.toNat_inj.mp ?_
  rw [byteOf, hmask]
  simp

theorem toNat_shift_add (hi lo : UInt8) :
    (UInt16.ofNat ((hi.toNat <<< 8 &&& 0xFF00) + lo.toNat)).toNat = leValue [lo, hi] := by
  have hhi : hi.toNat < 256 := hi.toNat_lt
  have hlo : lo.toNat < 256 := lo.toNat_lt
  have hmask : hi.toNat <<< 8 &&& 0xFF00 = hi.toNat * 256 := by
    change hi.toNat <<< 8 &&& 0xFF <<< 8 = _
    rw [← Nat.shiftLeft_and_distrib, Nat.and_two_pow_sub_one_eq_mod _ 8, Nat.mod_eq_of_lt hhi,
      Nat.shiftLeft_eq]
  rw [hmask, UInt16.toNat_ofNat']
  simp only [leValue]
  omega

theorem toNat_halves (hi lo : UInt16) :
    (UInt32.ofNat (hi.toNat <<< 16) + lo.toUInt32).toNat = hi.toNat * 65536 + lo.toNat := by
  have hhi : hi.toNat < 65536 := hi.toNat_lt
  have hlo : lo.toNat < 65536 := lo.toNat_lt
  rw [UInt32.toNat_add, UInt32.toNat_ofNat', UInt16.toNat_toUInt32, Nat.shiftLeft_eq]
  omega

theorem toNat_u16DecodeBe (a : Memory) : (u16DecodeBe a).toNat = leValue [a 1, a 0] :=
  toNat_shift_add (a 0) (a 1)

theorem toNat_u16DecodeLe (a : Memory) : (u16DecodeLe a).toNat = leValue [a 0, a 1] :=
  toNat_shift_add (a 1) (a 0)

theorem toNat_u32DecodeBe (a : Memory) : (u32DecodeBe a).toNat = leValue [a 3, a 2, a 1, a 0] := by
  rw [u32DecodeBe, toNat_halves, toNat_u16DecodeBe, toNat_u16DecodeBe]
  simp only [leValue, Nat.zero_add]
  ring

/-- The first two bytes of the array are taken for the high half. -/
theorem toNat_u32DecodeLe (a : Memory) : (u32DecodeLe a).toNat = leValue [a 2, a 3, a 0, a 1] := by
  rw [u32DecodeLe, toNat_halves, toNat_u16DecodeLe, toNat_u16DecodeLe]
  simp only [leValue, Nat.zero_add]
  ring

def swapHalves (bs : List UInt8) : List UInt8 := bs.drop 2 ++ bs.take 2

theorem length_swapHalves (bs : List UInt8) : (swapHalves bs).length = bs.length := by
  rw [swapHalves, List.length_append, List.length_drop, List.length_take]
  omega

theorem leBytes_two (n : ℕ) : leBytes 2 n = [byteOf n 0, byteOf n 8] := by
  simp [leBytes, byteOf_eq]

theorem leBytes_four (n : ℕ) :
    leBytes 4 n = [byteOf n 0, byteOf n 8, byteOf n 16, byteOf n 24] := by
  simp [leBytes, byteOf_eq, Nat.div_div_eq_div_mul]

theorem places_u16Be : u16Be.Places UInt16.toNat List.reverse List.reverse where
  inj _ _ := UInt16.toNat_inj.mp
  lt v := v.toNat_lt
  decode_eq := toNat_u16DecodeBe
  encode_eq v dest := by
    change _ = (leBytes 2 v.toNat).reverse
    rw [leBytes_two]
    rfl
  length_d _ := List.length_reverse

theorem places_u16Le : u16Le.Places UInt16.toNat id id where
  inj _ _ := UInt16.toNat_inj.mp
  lt v := v.toNat_lt
  decode_eq := toNat_u16DecodeLe
  encode_eq v dest := by
    change _ = leBytes 2 v.toNat
    rw [leBytes_two]
    rfl
  length_d _ := rfl

theorem places_u32Be : u32Be.Places UInt32.toNat List.reverse List.reverse where
  inj _ _ := UInt32.toNat_inj.mp
  lt v := v.toNat_lt
  decode_eq := toNat_u32DecodeBe
  encode_eq v dest := by
    change _ = (leBytes 4 v.toNat).reverse
    rw [leBytes_four]
    rfl
  length_d _ := List.length_reverse

theorem places_u32Le : u32Le.Places UInt32.toNat swapHalves id where
  inj _ _ := UInt32.toNat_inj.mp
  lt v := v.toNat_lt
  decode_eq := toNat_u32DecodeLe
  encode_eq v dest := by
    change _ = leBytes 4 v.toNat
    rw [leBytes_four]
    rfl
  length_d := length_swapHalves

def reversed (n : ℕ) (array : Memory) : Memory := fun i => array (n-1-i)

theorem u16_le_eq_be_reversed (array : Memory) :
    u16DecodeLe array = u16DecodeBe (reversed 2 array) := by
  refine UInt16.toNat_inj.mp ?_
  rw [toNat_u16DecodeLe, toNat_u16DecodeBe]
  rfl

theorem swapHalves_leBytes_iff (v : UInt32) :
    swapHalves (leBytes 4 v.toNat) = leBytes 4 v.toNat ↔ v.toNat / 65536 = v.toNat % 65536 := by
  have hv := v.toNat_lt
  rw [leBytes_four]
  change [byteOf v.toNat 16, byteOf v.toNat 24, byteOf v.toNat 0, byteOf v.toNat 8] =
    [byteOf v.toNat 0, byteOf v.toNat 8, byteOf v.toNat 16, byteOf v.toNat 24] ↔ _
  simp only [List.cons.injEq, and_true, byteOf_eq, ← UInt8.toNat_inj, UInt8.toNat_ofNat',
    Nat.reducePow, Nat.div_one]
  have hlow : v.toNat % 65536 % 256 = v.toNat % 256 := by omega
  have hlow' : v.toNat % 65536 / 256 = v.toNat / 256 % 256 := by omega
  have hhigh : v.toNat / 65536 / 256 = v.toNat / 16777216 % 256 := by omega
  constructor
  · rintro ⟨hfirst, hsecond, -, -⟩
    rw [← hlow] at hfirst
    rw [← hlow', ← hhigh] at hsecond
    omega
  · intro hhalves
    rw [← hlow, ← hlow', ← hhigh, hhalves]
    exact ⟨rfl, rfl, rfl, rfl⟩

theorem swapHalves_firstBytes_iff (array : Memory) :
    swapHalves (firstBytes array 4) = firstBytes array 4 ↔ array 0 = array 2 ∧ array 1 = array 3 := by
  change [array 2, array 3, array 0, array 1] = [array 0, array 1, array 2, array 3] ↔ _
  simp only [List.cons.injEq, and_true]
  constructor
  · rintro ⟨hfirst, hsecond, -, -⟩
    exact ⟨hfirst.symm, hsecond.symm⟩
  · rintro ⟨hfirst, hsecond⟩
    exact ⟨hfirst.symm, hsecond.symm, hfirst, hsecond⟩

theorem u32_le_eq_be_reversed_iff (array : Memory) :
    u32DecodeLe array = u32DecodeBe (reversed 4 array) ↔ array 0 = array 2 ∧ array 1 = array 3 := by
  have hrev : (u32DecodeBe (reversed 4 array)).toNat = leValue (firstBytes array 4) :=
    toNat_u32DecodeBe (reversed 4 array)
  have hle : (u32DecodeLe array).toNat = leValue (swapHalves (firstBytes array 4)) :=
    toNat_u32DecodeLe array
  rw [← swapHalves_firstBytes_iff, ← UInt32.toNat_inj, hrev, hle]
  constructor
  · intro hvalue
    exact leValue_inj hvalue (length_swapHalves _)
  · intro hbytes
    rw [hbytes]

/-- The codecs round-trip and the two orders mirror each other, except that the
little-endian reading of 32 bits is right only for what has two equal halves. -/
theorem codecs_round_trip_iff (v16 : UInt16) (v32 : UInt32) (array dest : Memory) :
    (u16Be.RoundTrips v16 array dest ∧ u16Le.RoundTrips v16 array dest ∧
      u32Be.RoundTrips v32 array dest ∧ u32Le.RoundTrips v32 array dest ∧
      u16DecodeLe array = u16DecodeBe (reversed 2 array) ∧
      u32DecodeLe array = u32DecodeBe (reversed 4 array)) ↔
      v32.toNat / 65536 = v32.toNat % 65536 ∧ array 0 = array 2 ∧ array 1 = array 3 := by
  have hreverse := List.reverse_reverse (α := UInt8)
  have hu16Be := places_u16Be.roundTrips hreverse hreverse v16 array dest
  have hu16Le := places_u16Le.roundTrips (fun _ => rfl) (fun _ => rfl) v16 array dest
  have hu32Be := places_u32Be.roundTrips hreverse hreverse v32 array dest
  have hu32Le : u32Le.RoundTrips v32 array dest ↔
      v32.toNat / 65536 = v32.toNat % 65536 ∧ array 0 = array 2 ∧ array 1 = array 3 := by
    rw [places_u32Le.roundTrips_iff, ← swapHalves_leBytes_iff, ← swapHalves_firstBytes_iff]
    rfl
  have hmirror := u16_le_eq_be_reversed array
  rw [hu32Le, u32_le_eq_be_reversed_iff]
  constructor
  · rintro ⟨-, -, -, hhalves, -, -⟩
    exact hhalves
  · intro hhalves
    exact ⟨hu16Be, hu16Le, hu32Be, hhalves, hmirror, hhalves.2⟩

/-- `0x12345678` comes back as `0x56781234`. -/
theorem u32Le_not_round_trip :
    ¬ ∀ (v16 : UInt16) (v32 : UInt32) (array dest : Memory),
      u16Be.RoundTrips v16 array dest ∧ u16Le.RoundTrips v16 array dest ∧
        u32Be.RoundTrips v32 array dest ∧ u32Le.RoundTrips v32 array dest ∧
        u16DecodeLe array = u16DecodeBe (reversed 2 array) ∧
        u32DecodeLe array = u32DecodeBe (reversed 4 array) := by
  intro hall
  obtain ⟨-, -, -, ⟨hvalue, -⟩, -, -⟩ := hall 0 0x12345678 (fun _ => 0) (fun _ => 0)
  exact absurd hvalue (by decide)

end BleFirmware.ByteOrder
