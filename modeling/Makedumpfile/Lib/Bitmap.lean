import Makedumpfile.Lib.ByteFile

/-!
# Bit arrays in bytes

Bit `i` of a bit array is bit `i % 8` of byte `i / 8`. `bitmapBytes bit start n` is the array of the
bits `start, …, start + n - 1` of a predicate; arrays of whole bytes are joined by appending them
(`bitmapBytes_append`), and every bit is read back (`isOn_bitmapBytes`). `setBit` changes one bit
(`isOn_setBit`), `pwrite` and `pread` of whole bytes move bits by a multiple of 8.
-/

namespace Lib

/-- Division that rounds up. -/
def divideup (x y : Nat) : Nat := (x + (y - 1)) / y

theorem divideup_mul {x y : Nat} (h : 0 < y) : divideup (x * y) y = x := by
  unfold divideup
  rw [Nat.mul_comm, Nat.mul_add_div h, Nat.div_eq_of_lt (by omega), Nat.add_zero]

theorem le_divideup_mul (x : Nat) {y : Nat} (h : 0 < y) : x ≤ divideup x y * y := by
  unfold divideup
  have h1 := Nat.div_add_mod (x + (y - 1)) y
  have h2 := Nat.mod_lt (x + (y - 1)) h
  rw [Nat.mul_comm] at h1
  omega

theorem divideup_mul_lt (x : Nat) {y : Nat} (h : 0 < y) : divideup x y * y < x + y := by
  unfold divideup
  have h1 := Nat.div_mul_le_self (x + (y - 1)) y
  omega

/-- The bit `i`. -/
def isOn (bm : List UInt8) (i : Nat) : Bool := (bm.getD (i / 8) 0).toNat.testBit (i % 8)

/-- The byte with the bits `f 0, …, f 7`. -/
def packByte (f : Nat → Bool) : UInt8 :=
  UInt8.ofNat ((f 0).toNat + 2 * (f 1).toNat + 4 * (f 2).toNat + 8 * (f 3).toNat +
    16 * (f 4).toNat + 32 * (f 5).toNat + 64 * (f 6).toNat + 128 * (f 7).toNat)

theorem packByte_congr {f g : Nat → Bool} (h : ∀ j < 8, f j = g j) : packByte f = packByte g := by
  unfold packByte
  rw [h 0 (by decide), h 1 (by decide), h 2 (by decide), h 3 (by decide), h 4 (by decide),
    h 5 (by decide), h 6 (by decide), h 7 (by decide)]

theorem testBit_packByte (f : Nat → Bool) {j : Nat} (hj : j < 8) :
    (packByte f).toNat.testBit j = f j := by
  have hle : ∀ i, (f i).toNat ≤ 1 := fun i => Bool.toNat_le (f i)
  have h0 := hle 0
  have h1 := hle 1
  have h2 := hle 2
  have h3 := hle 3
  have h4 := hle 4
  have h5 := hle 5
  have h6 := hle 6
  have h7 := hle 7
  have hbit : (packByte f).toNat / 2 ^ j % 2 = (f j).toNat := by
    unfold packByte
    rw [UInt8.toNat_ofNat']
    match j, hj with
    | 0, _ | 1, _ | 2, _ | 3, _ | 4, _ | 5, _ | 6, _ | 7, _ => omega
  rw [Nat.testBit_eq_decide_div_mod_eq, hbit]
  cases f j <;> rfl

/-- The bits `start, …, start + n - 1` in bytes; the last byte is filled with zero bits. -/
def bitmapBytes (bit : Nat → Bool) (start n : Nat) : List UInt8 :=
  (List.range (divideup n 8)).map fun k => packByte fun j => decide (8 * k + j < n) &&
    bit (start + (8 * k + j))

@[simp] theorem length_bitmapBytes (bit : Nat → Bool) (start n : Nat) :
    (bitmapBytes bit start n).length = divideup n 8 := by simp [bitmapBytes]

theorem getD_bitmapBytes (bit : Nat → Bool) (start : Nat) {n k : Nat} (h : k < divideup n 8) :
    (bitmapBytes bit start n).getD k 0 = packByte fun j => decide (8 * k + j < n) &&
      bit (start + (8 * k + j)) := by
  rw [List.getD_eq_getElem?_getD, List.getElem?_eq_getElem (by simpa using h)]
  simp [bitmapBytes]

/-- **Every bit is read back.** -/
theorem isOn_bitmapBytes (bit : Nat → Bool) (start : Nat) {n i : Nat} (h : i < n) :
    isOn (bitmapBytes bit start n) i = bit (start + i) := by
  unfold isOn
  have hk : i / 8 < divideup n 8 := by unfold divideup; omega
  rw [getD_bitmapBytes bit start hk, testBit_packByte _ (Nat.mod_lt _ (by decide)),
    Nat.div_add_mod, decide_eq_true h, Bool.true_and]

/-- A first part of whole bytes is followed by the rest. -/
theorem bitmapBytes_append (bit : Nat → Bool) (start : Nat) {a : Nat} (n : Nat) (ha : 8 ∣ a) :
    bitmapBytes bit start (a + n) = bitmapBytes bit start a ++ bitmapBytes bit (start + a) n := by
  obtain ⟨m, rfl⟩ := ha
  have hlen : divideup (8 * m + n) 8 = m + divideup n 8 := by unfold divideup; omega
  have hm : divideup (8 * m) 8 = m := by unfold divideup; omega
  unfold bitmapBytes
  rw [hlen, hm, List.range_add, List.map_append, List.map_map]
  refine congrArg₂ (· ++ ·) ?_ ?_
  · apply List.map_congr_left
    intro k hk
    have hk := List.mem_range.1 hk
    apply packByte_congr
    intro j hj
    congr 1
    exact decide_eq_decide.2 (by omega)
  · apply List.map_congr_left
    intro k _
    have e : ∀ j, 8 * (m + k) + j = 8 * m + (8 * k + j) := by omega
    rw [Function.comp_apply]
    apply packByte_congr
    intro j _
    rw [e, Nat.add_assoc, decide_eq_decide.2 (show 8 * m + (8 * k + j) < 8 * m + n ↔ _ by
      rw [Nat.add_lt_add_iff_left])]

/-! ## Changing one bit -/

/-- `buf[byte] |= 1<<bit`, or `buf[byte] &= ~(1<<bit)`. -/
def setBit (bm : List UInt8) (i : Nat) (val : Bool) : List UInt8 :=
  bm.modify (i / 8) fun b =>
    if val then b ||| (1 <<< UInt8.ofNat (i % 8)) else b &&& ~~~(1 <<< UInt8.ofNat (i % 8))

@[simp] theorem length_setBit (bm : List UInt8) (i : Nat) (val : Bool) :
    (setBit bm i val).length = bm.length := by simp [setBit]

theorem testBit_one_shiftLeft {k j : Nat} (hk : k < 8) (hj : j < 8) :
    ((1 : UInt8) <<< UInt8.ofNat k).toNat.testBit j = decide (j = k) := by
  have h : ∀ k : Fin 8, ∀ j : Fin 8,
      ((1 : UInt8) <<< UInt8.ofNat k).toNat.testBit j = decide (j = k) := by decide
  rw [h ⟨k, hk⟩ ⟨j, hj⟩]
  simp [Fin.ext_iff]

theorem testBit_not_byte (b : UInt8) {j : Nat} (hj : j < 8) :
    (~~~b).toNat.testBit j = !b.toNat.testBit j := by
  have hb : b.toNat < 2 ^ 8 := b.toNat_lt
  rw [UInt8.toNat_not, show UInt8.size - 1 - b.toNat = 2 ^ 8 - (b.toNat + 1) by
    simp only [UInt8.size]; omega, Nat.testBit_two_pow_sub_succ hb]
  simp [hj]

/-- **One bit changes**, the others stay. -/
theorem isOn_setBit {bm : List UInt8} {i : Nat} (h : i / 8 < bm.length) (val : Bool) (j : Nat) :
    isOn (setBit bm i val) j = if j = i then val else isOn bm j := by
  have hi := Nat.mod_lt i (show 0 < 8 by decide)
  have hj := Nat.mod_lt j (show 0 < 8 by decide)
  unfold isOn setBit
  rw [List.getD_eq_getElem?_getD, List.getElem?_modify]
  by_cases hb : i / 8 = j / 8
  · simp only [if_pos hb, Option.map_eq_map, Option.map_some, Option.getD_some,
      List.getD_eq_getElem?_getD, List.getElem?_eq_getElem (show j / 8 < bm.length by omega)]
    have hji : j % 8 = i % 8 ↔ j = i := by omega
    cases val
    · simp only [Bool.false_eq_true, ↓reduceIte, UInt8.toNat_and, Nat.testBit_and,
        testBit_not_byte _ hj, testBit_one_shiftLeft hi hj, hji]
      by_cases h' : j = i <;> simp [h']
    · simp only [↓reduceIte, UInt8.toNat_or, Nat.testBit_or, testBit_one_shiftLeft hi hj, hji]
      by_cases h' : j = i <;> simp [h']
  · rw [if_neg (by rintro rfl; exact hb rfl)]
    simp [if_neg hb, List.getD_eq_getElem?_getD]

/-! ## Bits of a file -/

open ByteFile

theorem isOn_eq_byteAt (f : ByteFile) (i : Nat) :
    isOn f i = (byteAt f (i / 8)).toNat.testBit (i % 8) := rfl

theorem isOn_pwrite (f : ByteFile) (off : Nat) (b : List UInt8) (i : Nat) :
    isOn (pwrite f off b) i =
      if 8 * off ≤ i ∧ i < 8 * (off + b.length) then isOn b (i - 8 * off) else isOn f i := by
  rw [isOn_eq_byteAt, byteAt_pwrite]
  by_cases h : 8 * off ≤ i ∧ i < 8 * (off + b.length)
  · rw [if_pos (by omega), if_pos h]
    unfold isOn
    rw [show (i - 8 * off) / 8 = i / 8 - off by omega, show (i - 8 * off) % 8 = i % 8 by omega]
  · rw [if_neg (by omega), if_neg h, isOn_eq_byteAt]

theorem isOn_pread (f : ByteFile) (off : Nat) {n i : Nat} (h : i < 8 * n) :
    isOn (pread f off n) i = isOn f (8 * off + i) := by
  unfold isOn
  rw [getD_pread (show i / 8 < n by omega), byteAt, show (8 * off + i) / 8 = off + i / 8 by omega,
    show (8 * off + i) % 8 = i % 8 by omega]

end Lib
