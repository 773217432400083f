import Mathlib.Data.List.Basic
import Mathlib.Data.List.TakeDrop
import Mathlib.Tactic.NormNum
import Mathlib.Tactic.Ring

/-!
# Byte memory and object representations

A memory maps addresses to bytes. `memcpy` writes a run of bytes and
`readBytes` reads one; two runs that do not overlap do not disturb each other.

A `Layout` fixes how the values of a type are laid out in a number of bytes.
Reading back the bytes of a value gives the value, which is all that a program
relies on when it copies an object byte by byte and uses the copy.
-/

namespace BleFirmware.Bytes

abbrev Memory := ℕ → UInt8

def firstBytes (src : Memory) (n : ℕ) : List UInt8 := (List.range n).map src

def readBytes (m : Memory) (p n : ℕ) : List UInt8 := firstBytes (fun i => m (p+i)) n

def memcpy (m : Memory) (p : ℕ) (src : Memory) (n : ℕ) : Memory :=
  fun a => if p ≤ a ∧ a < p+n then src (a-p) else m a

@[simp] theorem length_firstBytes (src : Memory) (n : ℕ) : (firstBytes src n).length = n := by
  simp [firstBytes]

theorem readBytes_memcpy (m : Memory) (p : ℕ) (src : Memory) (n : ℕ) :
    readBytes (memcpy m p src n) p n = firstBytes src n := by
  refine List.map_congr_left (fun i hi => ?_)
  have hin : i < n := List.mem_range.mp hi
  simp [memcpy, hin]

theorem readBytes_memcpy_of_disjoint (m : Memory) {p q n k : ℕ} (src : Memory)
    (h : p + n ≤ q ∨ q + k ≤ p) : readBytes (memcpy m p src n) q k = readBytes m q k := by
  refine List.map_congr_left (fun i hi => ?_)
  have hik : i < k := List.mem_range.mp hi
  have hout : ¬ (p ≤ q+i ∧ q+i < p+n) := by omega
  simp only [memcpy, if_neg hout]

structure Layout (T : Type*) where
  size : ℕ
  toBytes : T → List UInt8
  ofBytes : List UInt8 → T
  length_toBytes : ∀ x, (toBytes x).length = size
  ofBytes_toBytes : ∀ x, ofBytes (toBytes x) = x

namespace Layout

variable {T U : Type*}

def object (c : Layout T) (x : T) : Memory := fun i => (c.toBytes x).getD i 0

theorem firstBytes_object (c : Layout T) (x : T) : firstBytes (c.object x) c.size = c.toBytes x := by
  refine List.ext_getElem (by simp [c.length_toBytes]) (fun i h₁ h₂ => ?_)
  simp [firstBytes, object, h₂]

def prod (c : Layout T) (d : Layout U) : Layout (T × U) where
  size := c.size + d.size
  toBytes x := c.toBytes x.1 ++ d.toBytes x.2
  ofBytes bs := (c.ofBytes (bs.take c.size), d.ofBytes (bs.drop c.size))
  length_toBytes x := by simp [c.length_toBytes, d.length_toBytes]
  ofBytes_toBytes x := by
    rw [← c.length_toBytes x.1, List.take_left, List.drop_left, c.ofBytes_toBytes,
      d.ofBytes_toBytes]

def iso (c : Layout T) (f : U → T) (g : T → U) (h : ∀ x, g (f x) = x) : Layout U where
  size := c.size
  toBytes x := c.toBytes (f x)
  ofBytes bs := g (c.ofBytes bs)
  length_toBytes x := c.length_toBytes (f x)
  ofBytes_toBytes x := by rw [c.ofBytes_toBytes, h]

def pad (c : Layout T) (n : ℕ) : Layout T where
  size := c.size + n
  toBytes x := c.toBytes x ++ List.replicate n 0
  ofBytes bs := c.ofBytes (bs.take c.size)
  length_toBytes x := by simp [c.length_toBytes]
  ofBytes_toBytes x := by rw [← c.length_toBytes x, List.take_left, c.ofBytes_toBytes]

def leBytes : ℕ → ℕ → List UInt8
  | 0, _ => []
  | n+1, v => UInt8.ofNat v :: leBytes n (v / 256)

def leValue : List UInt8 → ℕ
  | [] => 0
  | b :: bs => b.toNat + 256 * leValue bs

theorem length_leBytes (n v : ℕ) : (leBytes n v).length = n := by
  induction n generalizing v with
  | zero => rfl
  | succ n ih => simp [leBytes, ih]

theorem leValue_leBytes (n : ℕ) {v : ℕ} (h : v < 256^n) : leValue (leBytes n v) = v := by
  induction n generalizing v with
  | zero =>
    have hv : v = 0 := by simpa using h
    simp [leBytes, leValue, hv]
  | succ n ih =>
    have hdiv : v / 256 < 256^n := by
      rw [pow_succ] at h
      exact Nat.div_lt_of_lt_mul (by rwa [Nat.mul_comm] at h)
    have hb : (UInt8.ofNat v).toNat = v % 256 := by simp
    rw [leBytes, leValue, ih hdiv, hb]
    omega

theorem leBytes_leValue (bs : List UInt8) : leBytes bs.length (leValue bs) = bs := by
  induction bs with
  | nil => rfl
  | cons b bs ih =>
    have hb : b.toNat < 256 := b.toNat_lt
    have hlow : (b.toNat + 256 * leValue bs) % 256 = b.toNat := by omega
    have hhigh : (b.toNat + 256 * leValue bs) / 256 = leValue bs := by omega
    have hhead : UInt8.ofNat (b.toNat + 256 * leValue bs) = b := UInt8.toNat_inj.mp (by simp)
    rw [List.length_cons, leBytes, leValue, hhead, hhigh, ih]

theorem leValue_inj {bs cs : List UInt8} (h : leValue bs = leValue cs)
    (hlen : bs.length = cs.length) : bs = cs := by
  rw [← leBytes_leValue bs, h, hlen, leBytes_leValue]

def word (n : ℕ) (toNat : T → ℕ) (ofNat : ℕ → T) (hlt : ∀ x, toNat x < 256^n)
    (h : ∀ x, ofNat (toNat x) = x) : Layout T where
  size := n
  toBytes x := leBytes n (toNat x)
  ofBytes bs := ofNat (leValue bs)
  length_toBytes x := length_leBytes n (toNat x)
  ofBytes_toBytes x := by rw [leValue_leBytes n (hlt x), h]

def u8 : Layout UInt8 :=
  word 1 UInt8.toNat UInt8.ofNat (fun x => by simpa using x.toNat_lt) (fun x => by simp)

def u16 : Layout UInt16 :=
  word 2 UInt16.toNat UInt16.ofNat (fun x => by simpa using x.toNat_lt) (fun x => by simp)

def u32 : Layout UInt32 :=
  word 4 UInt32.toNat UInt32.ofNat (fun x => by simpa using x.toNat_lt) (fun x => by simp)

def u64 : Layout UInt64 :=
  word 8 UInt64.toNat UInt64.ofNat (fun x => by simpa using x.toNat_lt) (fun x => by simp)

def bool : Layout Bool :=
  u8.iso (fun b => if b then 1 else 0) (fun v => v != 0) (fun b => by cases b <;> rfl)

def array (n : ℕ) : Layout (Fin n → UInt8) where
  size := n
  toBytes x := List.ofFn x
  ofBytes bs := fun i => bs.getD i 0
  length_toBytes x := List.length_ofFn
  ofBytes_toBytes x := by
    funext i
    simp

end Layout

end BleFirmware.Bytes
