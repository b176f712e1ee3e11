import Mathlib.Data.List.Basic
import Mathlib.Tactic.Ring

/-!
# Fixed-width integers in memory

`leBytes w v` is the `w`-byte little-endian representation of `v` (bits above `8 * w` are cut), and
`leNat` reads it back. `hostBytes be` is the byte order of a host, `bswap64` reverses the bytes of
a 64-bit value; `i64` and `int32` are the signed readings with two's complement wrap-around, `u64sub`
the difference of unsigned values.
-/

namespace Lib

/-- The `w` bytes of `v`, least significant first. -/
def leBytes : Nat → Nat → List UInt8
  | 0, _ => []
  | w + 1, v => UInt8.ofNat v :: leBytes w (v / 256)

/-- The value of a little-endian byte string. -/
def leNat (bs : List UInt8) : Nat := bs.foldr (fun b acc => b.toNat + 256 * acc) 0

@[simp] theorem length_leBytes (w v : Nat) : (leBytes w v).length = w := by
  induction w generalizing v with
  | zero => rfl
  | succ w ih => simp [leBytes, ih]

theorem leNat_leBytes (w v : Nat) : leNat (leBytes w v) = v % 256 ^ w := by
  induction w generalizing v with
  | zero => simp [leBytes, leNat, Nat.mod_one]
  | succ w ih =>
    have := ih (v / 256)
    unfold leNat at this ⊢
    rw [leBytes, List.foldr_cons, this, pow_succ', Nat.mod_mul]
    simp

theorem leNat_leBytes_of_lt {w v : Nat} (h : v < 256 ^ w) : leNat (leBytes w v) = v := by
  rw [leNat_leBytes, Nat.mod_eq_of_lt h]

theorem leBytes_leNat (bs : List UInt8) : leBytes bs.length (leNat bs) = bs := by
  induction bs with
  | nil => rfl
  | cons b bs ih =>
    have hb : b.toNat < 256 := b.toNat_lt
    have e : leNat (b :: bs) = b.toNat + 256 * leNat bs := rfl
    rw [List.length_cons, leBytes, e, Nat.add_mul_div_left _ _ (by decide), Nat.div_eq_of_lt hb,
      Nat.zero_add, ih]
    congr 1
    apply UInt8.toNat_inj.1
    simp

theorem leBytes_add (k w v : Nat) :
    leBytes (k + w) v = leBytes k v ++ leBytes w (v / 256 ^ k) := by
  induction k generalizing v with
  | zero => simp [leBytes]
  | succ k ih =>
    rw [Nat.add_right_comm, leBytes, leBytes, ih, List.cons_append, pow_succ', Nat.div_div_eq_div_mul]

theorem leNat_lt (bs : List UInt8) : leNat bs < 256 ^ bs.length := by
  induction bs with
  | nil => simp [leNat]
  | cons b bs ih =>
    have hb : b.toNat < 256 := b.toNat_lt
    have e : leNat (b :: bs) = b.toNat + 256 * leNat bs := rfl
    rw [e, List.length_cons, pow_succ]
    omega

/-! ## Byte order of the host -/

/-- A `w`-byte integer in the memory of a host. -/
def hostBytes (bigendian : Bool) (w v : Nat) : List UInt8 :=
  if bigendian then (leBytes w v).reverse else leBytes w v

/-- An integer read from the memory of a host. -/
def hostNat (bigendian : Bool) (bs : List UInt8) : Nat :=
  if bigendian then leNat bs.reverse else leNat bs

/-- `bswap_64`. -/
def bswap64 (v : Nat) : Nat := leNat (leBytes 8 v).reverse

@[simp] theorem length_hostBytes (be : Bool) (w v : Nat) : (hostBytes be w v).length = w := by
  cases be <;> simp [hostBytes]

/-- A value that fits is read back. -/
theorem hostNat_hostBytes (be : Bool) {w v : Nat} (h : v < 2 ^ (8 * w)) :
    hostNat be (hostBytes be w v) = v := by
  have hv : v < 256 ^ w := by
    rw [Nat.pow_mul] at h
    exact h
  cases be
  · exact leNat_leBytes_of_lt hv
  · simp only [hostNat, hostBytes, ↓reduceIte, List.reverse_reverse]
    exact leNat_leBytes_of_lt hv

theorem hostNat_lt (be : Bool) (bs : List UInt8) : hostNat be bs < 256 ^ bs.length := by
  unfold hostNat
  split
  · rw [← List.length_reverse]
    exact leNat_lt _
  · exact leNat_lt _

/-- A value swapped on little-endian hosts only leaves every host in big-endian order. -/
theorem hostBytes_swap (be : Bool) (v : Nat) :
    hostBytes be 8 (if be then v else bswap64 v) = (leBytes 8 v).reverse := by
  cases be
  · have h := leBytes_leNat (leBytes 8 v).reverse
    simpa [hostBytes, bswap64] using h
  · rfl

/-- Reading a big-endian value and swapping it on little-endian hosts only. -/
theorem hostNat_swap (be : Bool) {bs : List UInt8} (h : bs.length = 8) :
    (if be then hostNat be bs else bswap64 (hostNat be bs)) = leNat bs.reverse := by
  cases be
  · simp only [hostNat, bswap64, Bool.false_eq_true, ↓reduceIte]
    rw [← h, leBytes_leNat]
  · rfl

/-! ## Signed values -/

/-- A 64-bit pattern read as `int64_t`. -/
def i64 (v : Nat) : Int := if v < 2 ^ 63 then v else v - 2 ^ 64

/-- A value stored into an `int`: two's complement wrap-around. -/
def int32 (v : Int) : Int := (v + 2 ^ 31) % 2 ^ 32 - 2 ^ 31

theorem int32_lt (v : Int) : int32 v < 2 ^ 31 := by unfold int32; omega

theorem int32_of_fits {v : Int} (h0 : -(2 ^ 31) ≤ v) (h1 : v < 2 ^ 31) : int32 v = v := by
  unfold int32; omega

/-- The same value, by a test of the sign bit that does not unfold on open terms. -/
def i32 (v : Int) : Int :=
  if 2 ^ 31 ≤ (v % 2 ^ 32).toNat then (v % 2 ^ 32) - 2 ^ 32 else v % 2 ^ 32

theorem i32_eq_int32 (v : Int) : i32 v = int32 v := by
  unfold i32 int32
  split <;> omega

theorem i32_of_fits {v : Int} (h0 : -(2 ^ 31) ≤ v) (h1 : v < 2 ^ 31) : i32 v = v := by
  rw [i32_eq_int32, int32_of_fits h0 h1]

/-- A value stored in a `long long`. -/
def int64 (v : Int) : Int := (v + 2 ^ 63) % 2 ^ 64 - 2 ^ 63

/-- A value converted to `unsigned long long`. -/
def uint64 (v : Int) : Nat := (v % 2 ^ 64).toNat

theorem int64_of_fits {x : Int} (h0 : -(2 ^ 63) ≤ x) (h1 : x < 2 ^ 63) : int64 x = x := by
  unfold int64
  omega

theorem uint64_lt (v : Int) : uint64 v < 2 ^ 64 := by
  unfold uint64
  omega

theorem i64_of_lt {v : Nat} (h : v < 2 ^ 63) : i64 v = v := by unfold i64; rw [if_pos h]

/-! ## Differences -/

/-- A difference of `unsigned long long` values. -/
def u64sub (a b : Nat) : Nat := (a + 2 ^ 64 - b) % 2 ^ 64

theorem u64sub_of_le {a b : Nat} (ha : a < 2 ^ 64) (h : b ≤ a) : u64sub a b = a - b := by
  unfold u64sub
  omega

theorem u64sub_eq {a b : Nat} (ha : a < 2 ^ 64) (hb : b < 2 ^ 64) :
    u64sub a b = if b ≤ a then a - b else a + 2 ^ 64 - b := by
  unfold u64sub
  split <;> omega

theorem u64sub_lt (a b : Nat) : u64sub a b < 2 ^ 64 := Nat.mod_lt _ (by decide)

theorem u64sub_sub_left {a b c : Nat} (ha : a < 2 ^ 64) (hb : b < 2 ^ 64) (hc : c < 2 ^ 64) :
    u64sub (u64sub a b) (u64sub a c) = u64sub c b := by
  rw [u64sub_eq (u64sub_lt a b) (u64sub_lt a c), u64sub_eq ha hb, u64sub_eq ha hc, u64sub_eq hc hb]
  split <;> split <;> split <;> split <;> omega

theorem u64sub_sub_right {a b c : Nat} (ha : a < 2 ^ 64) (hb : b < 2 ^ 64) (hc : c < 2 ^ 64) :
    u64sub (u64sub a b) (u64sub c b) = u64sub a c := by
  rw [u64sub_eq (u64sub_lt a b) (u64sub_lt c b), u64sub_eq ha hb, u64sub_eq hc hb, u64sub_eq ha hc]
  split <;> split <;> split <;> split <;> omega

/-- A difference of a sum that was cut to 64 bits. -/
theorem add_u64sub_mod {d x y : Nat} (h : y ≤ x) (hy : y < 2 ^ 64) :
    (d + u64sub (x % 2 ^ 64) y) % 2 ^ 64 = (d + (x - y)) % 2 ^ 64 := by
  unfold u64sub
  rw [Nat.add_mod_mod]
  have hx := Nat.div_add_mod x (2 ^ 64)
  have hsum : d + (x % 2 ^ 64 + 2 ^ 64 - y) + 2 ^ 64 * (x / 2 ^ 64) = d + (x - y) + 2 ^ 64 := by omega
  rw [← Nat.add_mod_right (d + (x - y)), ← hsum, Nat.add_mul_mod_self_left]

end Lib
