import Mathlib.Algebra.Group.Nat.Defs
import Mathlib.Data.List.Basic

/-!
# Byte files

A regular file is the list of its bytes. `pwrite` is `lseek` followed by a complete `write`: a gap
between the end of the file and the offset reads as zeros, and writing nothing changes nothing.
`pread` is `lseek` followed by `read`, which comes back short at the end of the file.

The rules used by the writers: a write is read back (`pread_pwrite_self`), a write elsewhere is
not seen (`pread_pwrite_of_disjoint`), and two adjacent writes are one (`pwrite_append`).
-/

namespace Lib

/-- The contents of a regular file. -/
abbrev ByteFile := List UInt8

namespace ByteFile

/-- The byte at offset `i`; past the end of the file it reads as zero. -/
def byteAt (f : ByteFile) (i : Nat) : UInt8 := f.getD i 0

/-- `lseek(off)` and `read(n)`. -/
def pread (f : ByteFile) (off n : Nat) : List UInt8 := (f.drop off).take n

/-- `lseek(off)` and a `write` of all of `b`. -/
def pwrite (f : ByteFile) (off : Nat) (b : List UInt8) : ByteFile :=
  if b = [] then f
  else (f ++ List.replicate (off - f.length) 0).take off ++ b ++ f.drop (off + b.length)

variable {f g : ByteFile} {off : Nat} {b c : List UInt8}

@[simp] theorem pwrite_nil (f : ByteFile) (off : Nat) : pwrite f off [] = f := by simp [pwrite]

@[simp] theorem length_pwrite (f : ByteFile) (off : Nat) (b : List UInt8) :
    (pwrite f off b).length = if b = [] then f.length else max f.length (off + b.length) := by
  unfold pwrite
  split
  · rfl
  · simp only [List.length_append, List.length_take, List.length_replicate, List.length_drop]
    omega

theorem le_length_pwrite (f : ByteFile) (off : Nat) (b : List UInt8) :
    f.length ≤ (pwrite f off b).length := by
  rw [length_pwrite]; split <;> omega

/-- The end of a write is in the file. -/
theorem end_le_length_pwrite (f : ByteFile) (off : Nat) (hb : b ≠ []) :
    off + b.length ≤ (pwrite f off b).length := by
  rw [length_pwrite, if_neg hb]; omega

/-- **The bytes after a write.** -/
theorem byteAt_pwrite (f : ByteFile) (off : Nat) (b : List UInt8) (i : Nat) :
    byteAt (pwrite f off b) i =
      if off ≤ i ∧ i < off + b.length then b.getD (i - off) 0 else byteAt f i := by
  unfold byteAt pwrite
  by_cases hb : b = []
  · subst hb
    rw [if_pos rfl, if_neg (by rw [List.length_nil]; omega)]
  rw [if_neg hb]
  have hlen : ((f ++ List.replicate (off - f.length) 0).take off).length = off := by
    simp only [List.length_take, List.length_append, List.length_replicate]; omega
  simp only [List.getD_eq_getElem?_getD]
  rcases Nat.lt_or_ge i off with hi | hi
  · rw [List.append_assoc, List.getElem?_append_left (by omega), if_neg (by omega),
      List.getElem?_take_of_lt hi]
    rcases Nat.lt_or_ge i f.length with hf | hf
    · rw [List.getElem?_append_left hf]
    · rw [List.getElem?_append_right hf, List.getElem?_eq_none hf, List.getElem?_replicate]
      split <;> simp
  · rw [List.append_assoc, List.getElem?_append_right (by omega), hlen]
    by_cases hi' : i < off + b.length
    · rw [if_pos ⟨hi, hi'⟩, List.getElem?_append_left (by omega)]
    · rw [if_neg (by omega), List.getElem?_append_right (by omega), List.getElem?_drop]
      congr 2; omega

/-- Two files with the same length and the same bytes are equal. -/
theorem ext_byteAt (hlen : f.length = g.length) (h : ∀ i < f.length, byteAt f i = byteAt g i) :
    f = g := by
  apply List.ext_getElem hlen
  intro i h1 h2
  have := h i h1
  simpa [byteAt, List.getD_eq_getElem?_getD, List.getElem?_eq_getElem h1,
    List.getElem?_eq_getElem h2] using this

/-- Two adjacent writes are one write. -/
theorem pwrite_append (f : ByteFile) (off : Nat) (b c : List UInt8) :
    pwrite f off (b ++ c) = pwrite (pwrite f off b) (off + b.length) c := by
  apply ext_byteAt
  · simp only [length_pwrite, List.append_eq_nil_iff, List.length_append]
    by_cases hb : b = [] <;> by_cases hc : c = [] <;> simp [hb, hc]
    omega
  · intro i _
    simp only [byteAt_pwrite, List.length_append, List.getD_eq_getElem?_getD]
    rcases Nat.lt_or_ge i off with h1 | h1
    · rw [if_neg (by omega), if_neg (by omega), if_neg (by omega)]
    · rcases Nat.lt_or_ge i (off + b.length) with h2 | h2
      · rw [if_pos (by omega), if_neg (by omega), if_pos (by omega),
          List.getElem?_append_left (by omega)]
      · rcases Nat.lt_or_ge i (off + b.length + c.length) with h3 | h3
        · rw [if_pos (by omega), if_pos (by omega), List.getElem?_append_right (by omega)]
          congr 2; omega
        · rw [if_neg (by omega), if_neg (by omega), if_neg (by omega)]

/-- A write at the end of the file appends. -/
theorem pwrite_at_end (f : ByteFile) (b : List UInt8) : pwrite f (List.length f) b = f ++ b := by
  unfold pwrite
  by_cases hb : b = []
  · simp [hb]
  · simp [hb]

/-! ## Reading -/

theorem length_pread (f : ByteFile) (off n : Nat) :
    (pread f off n).length = min n (f.length - off) := by simp [pread]

theorem getElem?_pread (f : ByteFile) (off n i : Nat) :
    (pread f off n)[i]? = if i < n then f[off + i]? else none := by
  unfold pread
  split
  · rename_i h; rw [List.getElem?_take_of_lt h, List.getElem?_drop]
  · rename_i h; exact List.getElem?_eq_none (by simp; omega)

theorem getElem?_eq_byteAt {i : Nat} (h : i < f.length) : f[i]? = some (byteAt f i) := by
  simp [byteAt, List.getD_eq_getElem?_getD, List.getElem?_eq_getElem h]

/-- A read inside the file gives the bytes there. -/
theorem pread_eq_of_bytes {n : Nat} (hlen : off + n ≤ f.length) (hb : b.length = n)
    (h : ∀ i < n, byteAt f (off + i) = b.getD i 0) : pread f off n = b := by
  apply List.ext_getElem?
  intro i
  rw [getElem?_pread]
  split
  · rename_i hi
    rw [getElem?_eq_byteAt (by omega), h i hi, List.getD_eq_getElem?_getD,
      List.getElem?_eq_getElem (by omega)]
    rfl
  · exact (List.getElem?_eq_none (by omega)).symm

/-- The bytes read are the file's bytes. -/
theorem getD_pread {n i : Nat} (hi : i < n) : (pread f off n).getD i 0 = byteAt f (off + i) := by
  rw [List.getD_eq_getElem?_getD, getElem?_pread, if_pos hi, byteAt, List.getD_eq_getElem?_getD]

theorem length_pread_le (f : ByteFile) (off n : Nat) : (pread f off n).length ≤ n := by
  rw [length_pread]
  exact Nat.min_le_left _ _

/-- A part of what was read. -/
theorem pread_pread (f : ByteFile) {o n i m : Nat} (h : i + m ≤ n) :
    pread (pread f o n) i m = pread f (o + i) m := by
  unfold pread
  rw [List.drop_take, List.drop_drop, List.take_take, Nat.min_eq_left (by omega)]

/-- What was written is read back. -/
theorem pread_pwrite_self (f : ByteFile) (off : Nat) (b : List UInt8) :
    pread (pwrite f off b) off b.length = b := by
  by_cases hb : b = []
  · subst hb; simp [pread]
  · refine pread_eq_of_bytes (end_le_length_pwrite f off hb) rfl fun i hi => ?_
    rw [byteAt_pwrite, if_pos (by omega)]
    congr 1; omega

/-- A region of the file that another write does not reach keeps its bytes, and the region that
was inside the file stays there. -/
theorem pread_pwrite_of_disjoint {o n : Nat} (hlen : o + n ≤ f.length)
    (h : o + n ≤ off ∨ off + b.length ≤ o) : pread (pwrite f off b) o n = pread f o n := by
  refine pread_eq_of_bytes (Nat.le_trans hlen (le_length_pwrite f off b))
    (by rw [length_pread]; omega) fun i hi => ?_
  rw [byteAt_pwrite, if_neg (by omega), getD_pread hi]

theorem byteAt_pwrite_of_disjoint {i : Nat} (h : i < off ∨ off + b.length ≤ i) :
    byteAt (pwrite f off b) i = byteAt f i := by
  rw [byteAt_pwrite, if_neg (by omega)]

/-- Past the end of the file there are zeros. -/
theorem byteAt_of_length_le {i : Nat} (h : f.length ≤ i) : byteAt f i = 0 := by
  simp [byteAt, List.getD_eq_getElem?_getD, List.getElem?_eq_none h]

theorem byteAt_append (f g : ByteFile) (i : Nat) :
    byteAt (f ++ g) i = if i < f.length then byteAt f i else byteAt g (i - f.length) := by
  simp only [byteAt, List.getD_eq_getElem?_getD]
  split
  · rename_i h
    rw [List.getElem?_append_left h]
  · rename_i h
    rw [List.getElem?_append_right (by omega)]

/-! ## Regions -/

/-- The file has the bytes `w` at offset `base`. -/
def Holds (f : ByteFile) (base : Nat) (w : List UInt8) : Prop := pread f base w.length = w

variable {base : Nat} {w w' : List UInt8}

@[simp] theorem holds_nil (f : ByteFile) (base : Nat) : Holds f base [] := by simp [Holds, pread]

theorem Holds.length_le (h : Holds f base w) (hw : w ≠ []) : base + w.length ≤ f.length := by
  have hl := congrArg List.length h
  have hpos := List.length_pos_iff.2 hw
  rw [length_pread] at hl
  omega

theorem Holds.byteAt_eq (h : Holds f base w) {i : Nat} (hi : i < w.length) :
    byteAt f (base + i) = w.getD i 0 := by
  rw [← getD_pread hi, h]

theorem holds_of_bytes (hlen : base + w.length ≤ f.length)
    (h : ∀ i < w.length, byteAt f (base + i) = w.getD i 0) : Holds f base w :=
  pread_eq_of_bytes hlen rfl h

theorem Holds.pwrite_of_disjoint (h : Holds f base w)
    (hd : base + w.length ≤ off ∨ off + b.length ≤ base) : Holds (pwrite f off b) base w := by
  by_cases hw : w = []
  · subst hw
    exact holds_nil _ _
  · exact (pread_pwrite_of_disjoint (h.length_le hw) hd).trans h

theorem holds_append : Holds f base (w ++ w') ↔ Holds f base w ∧ Holds f (base + w.length) w' := by
  have hsplit : pread f base (w ++ w').length =
      pread f base w.length ++ pread f (base + w.length) w'.length := by
    unfold pread
    rw [List.length_append, List.take_add, List.drop_drop]
  unfold Holds
  rw [hsplit]
  constructor
  · intro h
    have hl := congrArg List.length h
    simp only [List.length_append, length_pread] at hl
    exact List.append_inj h (by rw [length_pread]; omega)
  · rintro ⟨h1, h2⟩
    rw [h1, h2]

/-- A write just behind a region extends it. -/
theorem Holds.pwrite_append (h : Holds f base w) :
    Holds (pwrite f (base + w.length) b) base (w ++ b) :=
  holds_append.2 ⟨h.pwrite_of_disjoint (.inl (Nat.le_refl _)), pread_pwrite_self _ _ _⟩

/-! ## Frames -/

/-- The file grew, and its bytes below `limit` are the same. -/
def Keeps (limit : Nat) (f g : ByteFile) : Prop :=
  f.length ≤ g.length ∧ ∀ i < limit, byteAt g i = byteAt f i

variable {limit : Nat} {k : ByteFile}

theorem Keeps.refl (limit : Nat) (f : ByteFile) : Keeps limit f f := ⟨Nat.le_refl _, fun _ _ => rfl⟩

theorem Keeps.trans (h1 : Keeps limit f g) (h2 : Keeps limit g k) : Keeps limit f k :=
  ⟨Nat.le_trans h1.1 h2.1, fun i hi => (h2.2 i hi).trans (h1.2 i hi)⟩

theorem Keeps.mono {l : Nat} (h : Keeps limit f g) (hl : l ≤ limit) : Keeps l f g :=
  ⟨h.1, fun i hi => h.2 i (by omega)⟩

theorem keeps_pwrite (f : ByteFile) (b : List UInt8) (h : limit ≤ off) :
    Keeps limit f (pwrite f off b) :=
  ⟨le_length_pwrite f off b, fun _ hi => byteAt_pwrite_of_disjoint (.inl (by omega))⟩

theorem Holds.keeps (h : Holds f base w) (hk : Keeps limit f g) (hl : base + w.length ≤ limit) :
    Holds g base w := by
  by_cases hw : w = []
  · subst hw
    exact holds_nil _ _
  · refine holds_of_bytes (Nat.le_trans (h.length_le hw) hk.1) fun i hi => ?_
    rw [hk.2 _ (by omega), h.byteAt_eq hi]

end ByteFile

end Lib
