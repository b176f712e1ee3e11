import Makedumpfile.Readmem.Page
import Makedumpfile.Readmem.Proof.Agree

/-!
# readpage_elf is exact

A round of the loop takes the first segment that meets the rest of the page (`closestPtLoad_first`)
and puts the bytes up to the segment's end into the buffer (`piece_ok`), unless a read fails or a size
does not fit `off_t`. The other segments that meet the page are the ones that meet the rest
(`First.meets_rest`), so by induction on the rest of the page the loop gives its bytes
(`pageLoop_ok`, `pageLoop_fails`, `pageLoop_overrun`), and `readpage_exact_iff` says exactly when.
-/

namespace Readmem

open Lib ByteFile

variable {v : Vmcore} {p q : PtLoad} {a n x : Nat}

/-- The table of segments: disjoint, none empty, none with more data than memory, and no address that
wraps. -/
structure TableOk (v : Vmcore) : Prop extends WellFormed v where
  nonempty : ∀ p ∈ v.loads, p.physStart < p.physEnd

/-- The segment meets `[a, a + n)`. -/
def PtLoad.Meets (p : PtLoad) (a n : Nat) : Prop := 0 < n ∧ p.physStart < a + n ∧ a < p.physEnd

/-- The address is in the part of the segment that is in the file. -/
def PtLoad.InFile (p : PtLoad) (x : Nat) : Prop := p.physStart ≤ x ∧ x < p.physStart + p.fileSize

instance : Decidable (p.InFile x) := inferInstanceAs (Decidable (_ ∧ _))

/-- The place of an address in the file, as an `off_t`. -/
def PtLoad.offsetOf (p : PtLoad) (x : Nat) : Nat := (p.fileOffset + (x - p.physStart)) % 2 ^ 64

variable (v) in
/-- The byte of the memory image at an address. -/
def imageByte (x : Nat) : UInt8 :=
  match v.loads.find? fun p => p.InFile x with
  | some p => byteAt v.file (p.offsetOf x)
  | none => 0

variable (v) in
/-- The memory image of `[a, a + n)`. -/
def image (a n : Nat) : List UInt8 := (List.range n).map fun k => imageByte v (a + k)

/-- The read for the segment's part of `[a, a + n)` that is in the file is possible: the offset and
the count are not negative, and the file has the bytes. -/
def FileOk (v : Vmcore) (p : PtLoad) (a n : Nat) : Prop :=
  let x := max a p.physStart
  let e := min (p.physStart + p.fileSize) (a + n)
  x < e → p.physStart + p.fileSize - x < 2 ^ 63 ∧ p.offsetOf x < 2 ^ 63 ∧
    p.offsetOf x + (e - x) ≤ v.file.length

/-- The count of the read is -1, which is also what `read` returns then. -/
def HeadWraps (p : PtLoad) (a : Nat) : Prop :=
  let x := max a p.physStart
  p.physStart + p.fileSize - x = 2 ^ 64 - 1 ∧ p.offsetOf x < 2 ^ 63

/-- The segment's part without data begins in `[a, a + n)`, and from there on it has 2^63 bytes or
more. -/
def TailWraps (p : PtLoad) (a n : Nat) : Prop :=
  let y := max (max a p.physStart) (p.physStart + p.fileSize)
  y < a + n ∧ 2 ^ 63 ≤ p.physEnd - y

def RoundWraps (v : Vmcore) (p : PtLoad) (a n : Nat) : Prop :=
  HeadWraps p a ∨ FileOk v p a n ∧ TailWraps p a n

/-- The loop comes to a segment with a size that is negative as an `off_t` before a read fails. -/
def PageWraps (v : Vmcore) (a n : Nat) : Prop :=
  ∃ p ∈ v.loads, p.Meets a n ∧ RoundWraps v p a n ∧
    ∀ q ∈ v.loads, q.Meets a n → q.physStart < p.physStart → FileOk v q a n

/-! ## The memory image -/

theorem imageByte_inFile (hv : WellFormed v) (hp : p ∈ v.loads) (h : p.InFile x) :
    imageByte v x = byteAt v.file (p.offsetOf x) := by
  unfold imageByte
  cases hf : v.loads.find? fun p => p.InFile x with
  | none =>
    have := List.find?_eq_none.1 hf p hp
    exact absurd (decide_eq_true h) this
  | some q =>
    have hq := List.mem_of_find?_eq_some hf
    have hqx : q.InFile x := by simpa using List.find?_some hf
    have h1 := hv.filesz p hp
    have h2 := hv.filesz q hq
    unfold PtLoad.InFile at h hqx
    rw [hv.unique hq hp ⟨hqx.1, by omega⟩ ⟨h.1, by omega⟩]

theorem imageByte_zero (h : ∀ q ∈ v.loads, ¬ q.InFile x) : imageByte v x = 0 := by
  unfold imageByte
  rw [List.find?_eq_none.2 fun q hq => by simpa using h q hq]

@[simp]
theorem length_image : (image v a n).length = n := by simp [image]

theorem image_add (a m n : Nat) : image v a (m + n) = image v a m ++ image v (a + m) n := by
  simp [image, List.range_add, Nat.add_assoc]

theorem image_zero (h : ∀ x, a ≤ x → x < a + n → ∀ q ∈ v.loads, ¬ q.InFile x) :
    image v a n = List.replicate n 0 := by
  refine List.ext_getElem (by simp) fun k h1 h2 => ?_
  simp only [length_image] at h1
  simpa [image] using imageByte_zero (h (a + k) (by omega) (by omega))

/-- The part of a segment that is in the file, read in one piece. -/
theorem image_inFile (hv : WellFormed v) (hp : p ∈ v.loads) (h1 : p.physStart ≤ a)
    (h2 : a + n ≤ p.physStart + p.fileSize) (h3 : p.offsetOf a < 2 ^ 63)
    (h4 : p.offsetOf a + n ≤ v.file.length) (h5 : n ≤ 2 ^ 63) :
    v.file.pread (p.offsetOf a) n = image v a n := by
  have hlen : (v.file.pread (p.offsetOf a) n).length = n := by
    rw [length_pread]
    omega
  refine List.ext_getElem (by simpa using hlen) fun k hk1 hk2 => ?_
  have hk : k < n := by omega
  have hoff : p.offsetOf (a + k) = p.offsetOf a + k := by
    unfold PtLoad.offsetOf at h3 ⊢
    omega
  have hb := imageByte_inFile hv hp (x := a + k) ⟨by omega, by omega⟩
  simp only [image, List.getElem_map, List.getElem_range, hb, hoff]
  simp [pread, byteAt, List.getElem?_eq_getElem (show p.offsetOf a + k < v.file.length by omega)]

/-! ## The closest segment -/

theorem closestLoop_le (a : Nat) : ∀ {l : List PtLoad} {d : Nat} {best : Option PtLoad} {p : PtLoad},
    (∀ b, best = some b → b.physStart - a ≤ d) → closestLoop a d best l = some p →
    p.physStart - a ≤ d ∧ ∀ q ∈ l, a < q.physEnd → p.physStart - a ≤ q.physStart - a
  | [], d, best, p, hb, h => ⟨hb p h, by simp⟩
  | r :: l, d, best, p, hb, h => by
    unfold closestLoop at h
    split at h
    case isTrue hend =>
      obtain ⟨h1, h2⟩ := closestLoop_le a hb h
      exact ⟨h1, List.forall_mem_cons.2 ⟨fun hlt => by omega, h2⟩⟩
    case isFalse hend =>
      split at h
      case isTrue hin =>
        cases h
        exact ⟨by omega, fun q _ _ => by omega⟩
      case isFalse hin =>
        split at h
        case isTrue hd =>
          obtain ⟨h1, h2⟩ := closestLoop_le a (by rintro b ⟨⟩; exact Nat.le_refl _) h
          exact ⟨by omega, List.forall_mem_cons.2 ⟨fun _ => h1, h2⟩⟩
        case isFalse hd =>
          obtain ⟨h1, h2⟩ := closestLoop_le a hb h
          exact ⟨h1, List.forall_mem_cons.2 ⟨fun _ => by omega, h2⟩⟩

theorem closestLoop_none (a : Nat) : ∀ {l : List PtLoad} {d : Nat} {best : Option PtLoad},
    closestLoop a d best l = none →
    best = none ∧ ∀ q ∈ l, a < q.physEnd → a + d ≤ q.physStart
  | [], d, best, h => ⟨h, by simp⟩
  | r :: l, d, best, h => by
    unfold closestLoop at h
    split at h
    case isTrue hend =>
      obtain ⟨h1, h2⟩ := closestLoop_none a h
      exact ⟨h1, List.forall_mem_cons.2 ⟨fun hlt => by omega, h2⟩⟩
    case isFalse hend =>
      split at h
      case isTrue hin => cases h
      case isFalse hin =>
        split at h
        case isTrue hd => cases (closestLoop_none a h).1
        case isFalse hd =>
          obtain ⟨h1, h2⟩ := closestLoop_none a h
          exact ⟨h1, List.forall_mem_cons.2 ⟨fun _ => by omega, h2⟩⟩

theorem closestPtLoad_none (h : closestPtLoad v a n = none) : ∀ q ∈ v.loads, ¬ q.Meets a n := by
  rintro q hq ⟨-, h1, h2⟩
  have := (closestLoop_none a h).2 q hq h2
  omega

/-- The first segment that meets `[a, a + n)`. -/
structure First (v : Vmcore) (p : PtLoad) (a n : Nat) : Prop where
  mem : p ∈ v.loads
  meets : p.Meets a n
  before : ∀ q ∈ v.loads, q.Meets a n → q ≠ p → p.physEnd ≤ q.physStart

theorem closestPtLoad_first (hv : TableOk v) (hn : 0 < n) (h : closestPtLoad v a n = some p) :
    First v p a n := by
  obtain ⟨hp, hend, hdist⟩ := closestPtLoad_spec hn h
  refine ⟨hp, ⟨hn, by omega, hend⟩, fun q hq hm hne => ?_⟩
  have hle := (closestLoop_le a (by simp) h).2 q hq hm.2.2
  have hne1 := hv.nonempty q hq
  have hq1 := hm.2.2
  rcases hv.disjoint.forall hp hq hne.symm with h | h
  · exact h
  · omega

/-! ## A round -/

theorem clampSize_of_lt {size room : Nat} (h : size < 2 ^ 63) : clampSize size room = min size room := by
  unfold clampSize
  rw [i64_of_lt h]
  split <;> omega

theorem clampSize_of_ge {size room : Nat} (h : 2 ^ 63 ≤ size) (hs : size < 2 ^ 64) :
    clampSize size room = size := by
  unfold clampSize i64
  rw [if_neg (by omega)]

/-- The gap before the segment ends in the page. -/
theorem First.start_lt (h : First v p a n) (hx : x = max a p.physStart) : x < a + n := by
  have h1 := h.meets.1
  have h2 := h.meets.2.1
  omega

theorem filePart_ok (hv : TableOk v) (h : First v p a n) (hok : FileOk v p a n)
    (hx : x = max a p.physStart) : filePart v p x (a + n - x) =
      .ok (image v x (min (p.physStart + p.fileSize) (a + n) - x)) := by
  have hlt := h.start_lt hx
  unfold FileOk at hok
  simp only [← hx] at hok
  unfold filePart
  by_cases hf : p.fileSize > x - p.physStart
  · obtain ⟨h1, h2, h3⟩ := hok (by omega)
    have hsz : clampSize (p.fileSize - (x - p.physStart)) (a + n - x) =
        min (p.physStart + p.fileSize) (a + n) - x := by
      rw [clampSize_of_lt (by omega)]
      omega
    have hread : readFromVmcore v (p.offsetOf x) (min (p.physStart + p.fileSize) (a + n) - x) =
        some (image v x (min (p.physStart + p.fileSize) (a + n) - x)) := by
      rw [readFromVmcore_ok h3]
      rw [image_inFile hv.toWellFormed h.mem (by omega) (by omega) h2 h3 (by omega)]
    simp only [if_pos hf, hsz, readFile]
    rw [← PtLoad.offsetOf, if_neg (by omega), if_neg (by omega), hread]
  · have hsz : min (p.physStart + p.fileSize) (a + n) - x = 0 := by omega
    simp [hf, hsz, image]

theorem filePart_wraps (hv : TableOk v) (h : First v p a n) (hw : HeadWraps p a)
    (hx : x = max a p.physStart) : filePart v p x (a + n - x) = .error .overrun := by
  unfold HeadWraps at hw
  simp only [← hx] at hw
  obtain ⟨h1, h2⟩ := hw
  have hr := hv.range p h.mem
  have hf := hv.filesz p h.mem
  have hsz : p.fileSize - (x - p.physStart) = 2 ^ 64 - 1 := by omega
  unfold filePart readFile
  simp only [hsz]
  rw [if_pos (by omega), clampSize_of_ge (by omega) (by omega), ← PtLoad.offsetOf,
    if_neg (by omega), if_pos (by omega), if_pos rfl]

theorem filePart_fails (hv : TableOk v) (h : First v p a n) (hw : ¬ HeadWraps p a)
    (hok : ¬ FileOk v p a n) (hx : x = max a p.physStart) :
    filePart v p x (a + n - x) = .error .fails := by
  have hr := hv.range p h.mem
  have hf := hv.filesz p h.mem
  unfold FileOk at hok
  unfold HeadWraps at hw
  simp only [← hx] at hok hw
  obtain ⟨hlt, hok⟩ := Classical.not_imp.1 hok
  unfold filePart readFile
  rw [if_pos (by omega)]
  dsimp only
  rw [← PtLoad.offsetOf]
  by_cases h1 : p.offsetOf x ≥ 2 ^ 63
  · rw [if_pos h1]
  · rw [if_neg h1]
    by_cases h2 : 2 ^ 63 ≤ p.fileSize - (x - p.physStart)
    · rw [clampSize_of_ge h2 (by omega), if_pos h2, if_neg]
      intro h3
      exact hw ⟨by omega, by omega⟩
    · rw [clampSize_of_lt (by omega), if_neg (by omega)]
      have hshort : readFromVmcore v (p.offsetOf x)
          (min (p.fileSize - (x - p.physStart)) (a + n - x)) = none := by
        unfold readFromVmcore
        rw [if_neg]
        rw [length_pread]
        intro hlen
        exact hok ⟨by omega, by omega, by omega⟩
      rw [hshort]

/-- The place reached after the part that is in the file, and the room left there. -/
theorem First.rest_room (h : First v p a n) (hx : x = max a p.physStart) {y : Nat}
    (hy : y = max x (p.physStart + p.fileSize)) {m : Nat}
    (hm : m = min (p.physStart + p.fileSize) (a + n) - x) :
    y < a + n ∧ x + m = y ∧ a + n - x - m = a + n - y ∨ a + n ≤ y ∧ a + n - x - m = 0 := by
  have := h.start_lt hx
  omega

theorem zeroPart_wraps (hv : TableOk v) (hn : n ≤ 2 ^ 22) (h : First v p a n) (hw : TailWraps p a n)
    (hx : x = max a p.physStart) {m : Nat} (hm : m = min (p.physStart + p.fileSize) (a + n) - x) :
    zeroPart p (x + m) (a + n - x - m) = .error .overrun := by
  unfold TailWraps at hw
  simp only [← hx] at hw
  obtain ⟨h1, h2⟩ := hw
  have hr := hv.range p h.mem
  unfold zeroPart
  rcases h.rest_room hx rfl hm with ⟨hy1, hy2, hy3⟩ | ⟨hy1, -⟩
  · rw [hy2, hy3, if_pos (by omega)]
    dsimp only
    rw [clampSize_of_ge (by omega) (by omega), if_pos (by omega)]
  · omega

theorem zeroPart_ok (hv : TableOk v) (h : First v p a n) (hw : ¬ TailWraps p a n)
    (hx : x = max a p.physStart) {m : Nat} (hm : m = min (p.physStart + p.fileSize) (a + n) - x) :
    zeroPart p (x + m) (a + n - x - m) =
      .ok (List.replicate (min p.physEnd (a + n) - (x + m)) 0) := by
  unfold TailWraps at hw
  simp only [← hx] at hw
  have hf := hv.filesz p h.mem
  have hend := h.meets.2.2
  have hne := hv.nonempty p h.mem
  unfold zeroPart
  rcases h.rest_room hx rfl hm with ⟨hy1, hy2, hy3⟩ | ⟨hy1, hy2⟩
  · rw [hy2, hy3, if_pos (by omega)]
    dsimp only
    rw [clampSize_of_lt (by omega), if_neg (by omega)]
    congr 2
    omega
  · rw [hy2, if_neg (by omega)]
    have : min p.physEnd (a + n) - (x + m) = 0 := by omega
    rw [this, List.replicate_zero]

/-- What a round puts into the buffer when no size wraps and the read succeeds. -/
theorem piece_ok (hv : TableOk v) (h : First v p a n) (hok : FileOk v p a n)
    (hw : ¬ TailWraps p a n) : piece v p a n = .ok (image v a (min p.physEnd (a + n) - a)) := by
  obtain ⟨x, hx⟩ : ∃ x, x = max a p.physStart := ⟨_, rfl⟩
  obtain ⟨m, hm⟩ : ∃ m, m = min (p.physStart + p.fileSize) (a + n) - x := ⟨_, rfl⟩
  have hlt := h.start_lt hx
  have hf := hv.filesz p h.mem
  have hend := h.meets.2.2
  have hne := hv.nonempty p h.mem
  have hgap : a + (p.physStart - a) = x := by omega
  have hroom : n - (p.physStart - a) = a + n - x := by omega
  -- another segment that meets the page begins behind this one
  have hother : ∀ z, a ≤ z → z < p.physEnd → z < a + n → ∀ q ∈ v.loads, q.InFile z → q = p := by
    intro z h1 h2 h3 q hq hin
    apply Classical.byContradiction
    intro hqp
    have hqf := hv.filesz q hq
    unfold PtLoad.InFile at hin
    have := h.before q hq ⟨h.meets.1, by omega, by omega⟩ hqp
    omega
  have hzero1 : image v a (p.physStart - a) = List.replicate (p.physStart - a) 0 := by
    refine image_zero fun z h1 h2 q hq hin => ?_
    have := hother z h1 (by omega) (by omega) q hq hin
    subst this
    unfold PtLoad.InFile at hin
    omega
  have hzero2 : image v (x + m) (min p.physEnd (a + n) - (x + m)) =
      List.replicate (min p.physEnd (a + n) - (x + m)) 0 := by
    refine image_zero fun z h1 h2 q hq hin => ?_
    have := hother z (by omega) (by omega) (by omega) q hq hin
    subst this
    unfold PtLoad.InFile at hin
    omega
  have hsum : min p.physEnd (a + n) - a =
      (p.physStart - a) + m + (min p.physEnd (a + n) - (x + m)) := by omega
  unfold piece
  simp only [hgap, hroom]
  rw [filePart_ok hv h hok hx, ← hm]
  simp only [Except.bind, length_image]
  rw [zeroPart_ok hv h hw hx hm]
  rw [hsum, image_add, image_add, hgap, hzero1, ← Nat.add_assoc, hgap, hzero2]
  rfl

theorem piece_overrun (hv : TableOk v) (hn : n ≤ 2 ^ 22) (h : First v p a n)
    (hw : RoundWraps v p a n) : piece v p a n = .error .overrun := by
  obtain ⟨x, hx⟩ : ∃ x, x = max a p.physStart := ⟨_, rfl⟩
  have hlt := h.start_lt hx
  have hgap : a + (p.physStart - a) = x := by omega
  have hroom : n - (p.physStart - a) = a + n - x := by omega
  unfold piece
  simp only [hgap, hroom]
  rcases hw with hw | ⟨hok, hw⟩
  · rw [filePart_wraps hv h hw hx]
    rfl
  · rw [filePart_ok hv h hok hx]
    simp only [Except.bind, length_image]
    rw [zeroPart_wraps hv hn h hw hx rfl]
    rfl

theorem piece_fails (hv : TableOk v) (h : First v p a n) (hw : ¬ RoundWraps v p a n)
    (hok : ¬ FileOk v p a n) : piece v p a n = .error .fails := by
  obtain ⟨x, hx⟩ : ∃ x, x = max a p.physStart := ⟨_, rfl⟩
  have hlt := h.start_lt hx
  have hgap : a + (p.physStart - a) = x := by omega
  have hroom : n - (p.physStart - a) = a + n - x := by omega
  unfold piece
  simp only [hgap, hroom]
  rw [filePart_fails hv h (fun hh => hw (.inl hh)) hok hx]
  rfl

/-! ## The rest of the page -/

section Rest

variable {e k : Nat}

theorem First.meets_rest (hv : TableOk v) (h : First v p a n) (he : e = min p.physEnd (a + n))
    (hk : e + k = a + n) (hq : q ∈ v.loads) : q.Meets a n ↔ q = p ∨ q.Meets e k := by
  have hm := h.meets
  have hne := hv.nonempty q hq
  unfold PtLoad.Meets at hm ⊢
  constructor
  · intro hqm
    by_cases hqp : q = p
    · exact .inl hqp
    · have := h.before q hq hqm hqp
      exact .inr ⟨by omega, by omega, by omega⟩
  · rintro (rfl | hqm)
    · exact hm
    · exact ⟨hm.1, by omega, by omega⟩

/-- The segments of the rest begin in the rest. -/
theorem First.start_rest (hv : TableOk v) (h : First v p a n) (he : e = min p.physEnd (a + n))
    (hk : e + k = a + n) (hq : q ∈ v.loads) (hm : q.Meets e k) : p.physEnd ≤ q.physStart := by
  refine h.before q hq ((h.meets_rest hv he hk hq).2 (.inr hm)) ?_
  rintro rfl
  unfold PtLoad.Meets at hm
  omega

theorem fileOk_rest (hk : e + k = a + n) (ha : a ≤ q.physStart) (he : e ≤ q.physStart) :
    FileOk v q e k ↔ FileOk v q a n := by
  unfold FileOk
  rw [hk, Nat.max_eq_right ha, Nat.max_eq_right he]

theorem roundWraps_rest (hk : e + k = a + n) (ha : a ≤ q.physStart) (he : e ≤ q.physStart) :
    RoundWraps v q e k ↔ RoundWraps v q a n := by
  unfold RoundWraps HeadWraps TailWraps
  rw [fileOk_rest hk ha he, hk, Nat.max_eq_right ha, Nat.max_eq_right he]

/-- Every segment of the page has its data when the first one and those of the rest have it. -/
theorem First.fileOk_iff (hv : TableOk v) (h : First v p a n) (he : e = min p.physEnd (a + n))
    (hk : e + k = a + n) : (∀ q ∈ v.loads, q.Meets a n → FileOk v q a n) ↔
      FileOk v p a n ∧ ∀ q ∈ v.loads, q.Meets e k → FileOk v q e k := by
  have hpm := h.meets.2.2
  constructor
  · intro hall
    refine ⟨hall p h.mem h.meets, fun q hq hm => ?_⟩
    have hs := h.start_rest hv he hk hq hm
    exact (fileOk_rest hk (by omega) (by omega)).2
      (hall q hq ((h.meets_rest hv he hk hq).2 (.inr hm)))
  · rintro ⟨hp, hall⟩ q hq hm
    rcases (h.meets_rest hv he hk hq).1 hm with rfl | hm
    · exact hp
    · have hs := h.start_rest hv he hk hq hm
      exact (fileOk_rest hk (by omega) (by omega)).1 (hall q hq hm)

theorem First.pageWraps_iff (hv : TableOk v) (h : First v p a n) (he : e = min p.physEnd (a + n))
    (hk : e + k = a + n) :
    PageWraps v a n ↔ RoundWraps v p a n ∨ FileOk v p a n ∧ PageWraps v e k := by
  have hpm := h.meets.2.2
  have hpe := hv.nonempty p h.mem
  constructor
  · rintro ⟨r, hr, hm, hw, hbefore⟩
    rcases (h.meets_rest hv he hk hr).1 hm with rfl | hm
    · exact .inl hw
    · have hs := h.start_rest hv he hk hr hm
      refine .inr ⟨hbefore p h.mem h.meets (by omega), r, hr, hm, ?_, fun q hq hqm hlt => ?_⟩
      · exact (roundWraps_rest hk (by omega) (by omega)).2 hw
      · have hqs := h.start_rest hv he hk hq hqm
        exact (fileOk_rest hk (by omega) (by omega)).2
          (hbefore q hq ((h.meets_rest hv he hk hq).2 (.inr hqm)) hlt)
  · rintro (hw | ⟨hok, r, hr, hm, hw, hbefore⟩)
    · refine ⟨p, h.mem, h.meets, hw, fun q hq hqm hlt => ?_⟩
      have := h.before q hq hqm (by rintro rfl; omega)
      omega
    · have hs := h.start_rest hv he hk hr hm
      refine ⟨r, hr, (h.meets_rest hv he hk hr).2 (.inr hm), ?_, fun q hq hqm hlt => ?_⟩
      · exact (roundWraps_rest hk (by omega) (by omega)).1 hw
      · rcases (h.meets_rest hv he hk hq).1 hqm with rfl | hqm
        · exact hok
        · have hqs := h.start_rest hv he hk hq hqm
          exact (fileOk_rest hk (by omega) (by omega)).1 (hbefore q hq hqm hlt)

end Rest

/-! ## The loop -/

/-- The loop where no segment meets the rest of the page. -/
theorem pageLoop_none (h : ∀ q ∈ v.loads, ¬ q.Meets a n) : pageLoop v a n = .ok [] := by
  unfold pageLoop
  split
  case isTrue => rfl
  case isFalse hn =>
    cases hc : closestPtLoad v a n with
    | none => rfl
    | some p =>
      obtain ⟨hp, h1, h2⟩ := closestPtLoad_spec (Nat.pos_of_ne_zero hn) hc
      exact absurd ⟨Nat.pos_of_ne_zero hn, by omega, h1⟩ (h p hp)

/-- A round of the loop, for the first segment. -/
theorem pageLoop_first (hv : TableOk v) (h : ∃ q ∈ v.loads, q.Meets a n) :
    ∃ p, First v p a n ∧ pageLoop v a n =
      match piece v p a n with
      | .error e => .error e
      | .ok b =>
        if b.length = 0 then .error .stuck
        else (pageLoop v (a + b.length) (n - b.length)).map (b ++ ·) := by
  obtain ⟨q, hq, hm⟩ := h
  cases hc : closestPtLoad v a n with
  | none => exact absurd hm (closestPtLoad_none hc q hq)
  | some p =>
    refine ⟨p, closestPtLoad_first hv hm.1 hc, ?_⟩
    rw [pageLoop, if_neg (Nat.pos_iff_ne_zero.1 hm.1)]
    cases hpiece : piece v p a n with
    | error e => simp only [hc, hpiece]
    | ok b => simp only [hc, hpiece]

theorem pageLoop_spec (hv : TableOk v) : ∀ (n a : Nat), n ≤ 2 ^ 22 →
    (PageWraps v a n → pageLoop v a n = .error .overrun) ∧
    (¬ PageWraps v a n → ¬ (∀ q ∈ v.loads, q.Meets a n → FileOk v q a n) →
      pageLoop v a n = .error .fails) ∧
    (¬ PageWraps v a n → (∀ q ∈ v.loads, q.Meets a n → FileOk v q a n) →
      ∃ m ≤ n, pageLoop v a n = .ok (image v a m) ∧ (∀ q ∈ v.loads, ¬ q.Meets (a + m) (n - m)) ∧
        ((∃ q ∈ v.loads, q.Meets a n) → 0 < m)) := by
  intro n
  induction n using Nat.strongRecOn with
  | ind n ih =>
    intro a hn
    by_cases hex : ∃ q ∈ v.loads, q.Meets a n
    case neg =>
      have hnone : ∀ q ∈ v.loads, ¬ q.Meets a n := fun q hq hm => hex ⟨q, hq, hm⟩
      refine ⟨?_, ?_, ?_⟩
      · rintro ⟨p, hp, hm, -⟩
        exact absurd hm (hnone p hp)
      · intro _ hok
        exact absurd (fun q hq hm => absurd hm (hnone q hq)) hok
      · intro _ _
        exact ⟨0, Nat.zero_le n, pageLoop_none hnone, hnone, fun h => absurd h hex⟩
    case pos =>
      obtain ⟨p, h, hloop⟩ := pageLoop_first hv hex
      obtain ⟨m, hm⟩ : ∃ m, m = min p.physEnd (a + n) - a := ⟨_, rfl⟩
      have hmeets := h.meets
      unfold PtLoad.Meets at hmeets
      have he : a + m = min p.physEnd (a + n) := by omega
      have hk : a + m + (n - m) = a + n := by omega
      obtain ⟨ih1, ih2, ih3⟩ := ih (n - m) (by omega) (a + m) (by omega)
      rw [h.pageWraps_iff hv he hk, h.fileOk_iff hv he hk, hloop]
      by_cases hw : RoundWraps v p a n
      · rw [piece_overrun hv hn h hw]
        exact ⟨fun _ => rfl, fun hnw => absurd (.inl hw) hnw, fun hnw => absurd (.inl hw) hnw⟩
      by_cases hok : FileOk v p a n
      · -- the round succeeds, and the rest of the page decides
        have hlen : ¬ (image v a m).length = 0 := by
          rw [length_image]
          omega
        rw [piece_ok hv h hok fun ht => hw (.inr ⟨hok, ht⟩), ← hm]
        dsimp only
        rw [if_neg hlen, length_image]
        refine ⟨?_, ?_, ?_⟩
        · rintro (hw' | ⟨-, hw'⟩)
          · exact absurd hw' hw
          · rw [ih1 hw']
            rfl
        · intro hnw hnok
          rw [ih2 (fun h' => hnw (.inr ⟨hok, h'⟩)) fun h' => hnok ⟨hok, h'⟩]
          rfl
        · rintro hnw ⟨-, hall⟩
          obtain ⟨k, hk1, hk2, hk3, -⟩ := ih3 (fun h' => hnw (.inr ⟨hok, h'⟩)) hall
          refine ⟨m + k, by omega, ?_, ?_, fun _ => by omega⟩
          · rw [hk2, image_add]
            rfl
          · rw [← Nat.add_assoc, ← Nat.sub_sub]
            exact hk3
      · rw [piece_fails hv h hw hok]
        refine ⟨?_, fun _ _ => rfl, fun _ hall => absurd hall.1 hok⟩
        rintro (hw' | ⟨hok', -⟩)
        · exact absurd hw' hw
        · exact absurd hok' hok

/-! ## The page -/

variable (v) in
/-- A read that is needed for the page is not possible. -/
def ReadFails (a : Nat) : Prop := ∃ q ∈ v.loads, q.Meets a v.pageSize ∧ ¬ FileOk v q a v.pageSize

variable (v) in
/-- `readpage_elf` returns FALSE where no segment meets the page or a read fails, and else the bytes
of the memory image. -/
def PageExact (a : Nat) : Prop :=
  ((∀ q ∈ v.loads, ¬ q.Meets a v.pageSize) ∨ ReadFails v a → readpage v a = .error .fails) ∧
    ((∃ q ∈ v.loads, q.Meets a v.pageSize) → ¬ ReadFails v a →
      readpage v a = .ok (image v a v.pageSize))

theorem Vmcore.pageSize_le (v : Vmcore) : v.pageSize ≤ 2 ^ 22 :=
  Nat.le_of_dvd (by decide) v.pageSize_dvd

theorem not_readFails : ¬ ReadFails v a ↔
    ∀ q ∈ v.loads, q.Meets a v.pageSize → FileOk v q a v.pageSize := by
  simp [ReadFails]

theorem readpage_overrun (hv : TableOk v) (h : PageWraps v a v.pageSize) :
    readpage v a = .error .overrun := by
  rw [readpage, (pageLoop_spec hv v.pageSize a v.pageSize_le).1 h]
  rfl

theorem readpage_fails (hv : TableOk v) (h : ¬ PageWraps v a v.pageSize) (hf : ReadFails v a) :
    readpage v a = .error .fails := by
  have hall := fun hall => not_readFails.2 hall hf
  rw [readpage, (pageLoop_spec hv v.pageSize a v.pageSize_le).2.1 h hall]
  rfl

theorem readpage_none (h : ∀ q ∈ v.loads, ¬ q.Meets a v.pageSize) :
    readpage v a = .error .fails := by
  rw [readpage, pageLoop_none h]
  rfl

theorem readpage_ok (hv : TableOk v) (h : ¬ PageWraps v a v.pageSize) (hf : ¬ ReadFails v a)
    (hex : ∃ q ∈ v.loads, q.Meets a v.pageSize) : readpage v a = .ok (image v a v.pageSize) := by
  obtain ⟨m, hm, hloop, hrest, hpos⟩ :=
    (pageLoop_spec hv v.pageSize a v.pageSize_le).2.2 h (not_readFails.1 hf)
  have hne : image v a m ≠ [] := by
    intro hnil
    have hlen := congrArg List.length hnil
    rw [length_image, List.length_nil] at hlen
    exact Nat.pos_iff_ne_zero.1 (hpos hex) hlen
  -- what the loop did not reach is in no segment
  have hzero : image v (a + m) (v.pageSize - m) = List.replicate (v.pageSize - m) 0 := by
    refine image_zero fun x h1 h2 q hq hin => hrest q hq ?_
    have hsz := hv.filesz q hq
    unfold PtLoad.InFile at hin
    exact ⟨by omega, by omega, by omega⟩
  rw [readpage, hloop]
  simp only [Except.bind, if_neg hne, length_image]
  rw [← hzero, ← image_add, Nat.add_sub_cancel' hm]

/-- **readpage_elf is exact** unless it comes to a size that is negative as an `off_t`: then it writes
outside the buffer. -/
theorem readpage_exact_iff (hv : TableOk v) (a : Nat) :
    PageExact v a ↔ ¬ PageWraps v a v.pageSize := by
  constructor
  · rintro ⟨h1, h2⟩ hw
    have hover := readpage_overrun hv hw
    obtain ⟨p, hp, hm, -⟩ := hw
    by_cases hf : ReadFails v a
    · rw [h1 (.inr hf)] at hover
      cases hover
    · rw [h2 ⟨p, hp, hm⟩ hf] at hover
      cases hover
  · intro hw
    constructor
    · rintro (hnone | hf)
      · exact readpage_none hnone
      · exact readpage_fails hv hw hf
    · intro hex hf
      exact readpage_ok hv hw hf hex

private theorem dvd_eight : 8 ∣ 2 ^ 22 := ⟨2 ^ 19, rfl⟩

/-- Two small segments in one page, the second one first in the table. -/
def twoLoads : Vmcore where
  pageSize := 8
  loads := [⟨4, 6, 0, 1⟩, ⟨1, 3, 1, 2⟩]
  file := [7, 8, 9]
  pageSize_dvd := dvd_eight

theorem readpage_exact_twoLoads : TableOk twoLoads ∧ PageExact twoLoads 0 ∧
    image twoLoads 0 8 = [0, 8, 9, 0, 7, 0, 0, 0] := by
  have hok : TableOk twoLoads :=
    { disjoint := by simp [twoLoads, PtLoad.Apart]
      filesz := by simp [twoLoads]
      range := by simp [twoLoads]
      nonempty := by simp [twoLoads] }
  refine ⟨hok, (readpage_exact_iff hok 0).2 ?_, by decide⟩
  simp [PageWraps, RoundWraps, HeadWraps, TailWraps, twoLoads, PtLoad.Meets]

/-- A segment of 2^63 bytes without data. -/
def hugeTail : Vmcore where
  pageSize := 4096
  loads := [⟨0, 2 ^ 63, 4096, 0⟩]
  file := []
  pageSize_dvd := dvd_four_kib

theorem not_pageExact_hugeTail : TableOk hugeTail ∧ ¬ PageExact hugeTail 0 := by
  have hok : TableOk hugeTail :=
    { disjoint := by simp [hugeTail]
      filesz := by simp [hugeTail]
      range := by simp [hugeTail]
      nonempty := by simp [hugeTail] }
  refine ⟨hok, fun h => ?_⟩
  have hw : PageWraps hugeTail 0 4096 :=
    ⟨⟨0, 2 ^ 63, 4096, 0⟩, by simp [hugeTail], by simp [PtLoad.Meets], by
      simp [RoundWraps, FileOk, TailWraps], by simp [hugeTail]⟩
  have hf : ¬ ReadFails hugeTail 0 := by simp [ReadFails, hugeTail, FileOk]
  have hover := readpage_overrun hok hw
  rw [h.2 ⟨_, List.mem_cons_self, by simp [PtLoad.Meets, hugeTail]⟩ hf] at hover
  cases hover

end Readmem
