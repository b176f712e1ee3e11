import Makedumpfile.Bitmap.Proof.Cycles
import Makedumpfile.Bitmap.Proof.Count
import Makedumpfile.Bitmap.Proof.Orders

/-!
# The buffer of a window as bytes

After the pages of the memory are set the filters only clear bits (`Shrinks`). So in the buffer of a
window no bit is set behind its end (`create2ndBitmap_shrinks`), and the bytes that are written for
the window are the bitmap of its pages (`take_window`).
-/

namespace Bitmap

open Lib ByteFile

variable {m : Image} {level : Nat} {c : PfnCycle} {buf buf' buf'' : List UInt8}

/-- The buffer keeps its size and gets no bit. -/
structure Shrinks (buf buf' : List UInt8) : Prop where
  length : buf'.length = buf.length
  bits : ∀ k, isOn buf' k = true → isOn buf k = true

theorem Shrinks.refl (buf : List UInt8) : Shrinks buf buf := ⟨rfl, fun _ h => h⟩

theorem Shrinks.trans (h : Shrinks buf buf') (h' : Shrinks buf' buf'') : Shrinks buf buf'' :=
  ⟨h'.length.trans h.length, fun k hk => h.bits k (h'.bits k hk)⟩

/-! ## The filters -/

theorem shrinks_clearBit (buf : List UInt8) (pfn : Nat) (c : PfnCycle) :
    Shrinks buf (clearBit buf pfn c) := by
  refine ⟨length_clearBit buf pfn c, fun k hk => ?_⟩
  unfold clearBit setBitmapBuffer at hk
  split at hk
  case isFalse => exact hk
  case isTrue =>
    dsimp only at hk
    by_cases hlen : (pfn - c.startPfn) / 8 < buf.length
    · rw [isOn_setBit hlen] at hk
      split at hk
      · cases hk
      · exact hk
    · rw [setBit, List.modify_eq_set_getElem?] at hk
      simpa [List.getElem?_eq_none (Nat.not_lt.mp hlen)] using hk

theorem shrinks_clearRange (c : PfnCycle) : ∀ (n : Nat) (buf : List UInt8) (pfn : Nat),
    Shrinks buf (clearRange buf pfn n c)
  | 0, buf, _ => .refl buf
  | n + 1, buf, pfn => (shrinks_clearBit buf pfn c).trans (shrinks_clearRange c n _ (pfn + 1))

/-- A loop whose rounds only clear bits. -/
theorem shrinks_foldl {α : Type} {f : List UInt8 → α → List UInt8}
    (hf : ∀ buf a, Shrinks buf (f buf a)) : ∀ (l : List α) (buf : List UInt8), Shrinks buf
    (l.foldl f buf)
  | [], buf => .refl buf
  | a :: l, buf => (hf buf a).trans (shrinks_foldl hf l (f buf a))

theorem shrinks_excludeNodataPages (m : Image) (c : PfnCycle) (buf : List UInt8) :
    Shrinks buf (excludeNodataPages m c buf) :=
  shrinks_foldl (fun buf _ => shrinks_clearRange c _ buf _) m.extents buf

theorem shrinks_excludeFreePage (h : excludeFreePage m c buf = some buf') : Shrinks buf buf' := by
  obtain ⟨l, -, rfl⟩ := Option.map_eq_some_iff.mp h
  exact shrinks_foldl (fun buf b => shrinks_clearRange c (2 ^ b.2) buf b.1) l buf

theorem shrinks_excludeZeroPage {pfn : Nat} (h : excludeZeroPage m c buf pfn = some buf') :
    Shrinks buf buf' := by
  unfold excludeZeroPage at h
  split at h
  · cases h
    exact .refl _
  split at h
  · cases h
    exact .refl _
  obtain ⟨z, -, rfl⟩ := Option.map_eq_some_iff.mp h
  cases z with
  | true => exact shrinks_clearBit buf pfn c
  | false => exact .refl _

theorem shrinks_excludeZeroPages : ∀ (l : List Nat) {buf buf' : List UInt8},
    l.foldlM (excludeZeroPage m c) buf = some buf' → Shrinks buf buf'
  | [], _, _, h => by
    cases h
    exact .refl _
  | pfn :: l, buf, buf', h => by
    rw [List.foldlM_cons] at h
    obtain ⟨buf₁, h1, h2⟩ := Option.bind_eq_some_iff.mp h
    exact (shrinks_excludeZeroPage h1).trans (shrinks_excludeZeroPages l h2)

theorem shrinks_excludeRange (pfn endpfn : Nat) (c : PfnCycle) (s : Scan) :
    Shrinks s.buf (excludeRange pfn endpfn c s).buf :=
  shrinks_clearRange c _ s.buf pfn

theorem shrinks_excludeBlock (pfn order : Nat) (c : PfnCycle) (s : Scan) :
    Shrinks s.buf (excludeBlock pfn order c s).1.buf := by
  unfold excludeBlock
  split
  · exact shrinks_clearBit s.buf pfn c
  · exact shrinks_excludeRange pfn _ c s

theorem shrinks_scanPages {pfnEnd : Nat} : ∀ (fuel : Nat) {l : PageLoop} {s : Scan},
    scanPages m level c pfnEnd fuel l = .ok s → Shrinks l.scan.buf s.buf
  | 0, _, _, h => by cases h
  | fuel + 1, l, s, h => by
    unfold scanPages at h
    split at h
    case isFalse =>
      cases h
      exact .refl _
    case isTrue =>
      split at h
      case h_1 => cases h
      case h_2 l' hstep =>
        have hl : Shrinks l.scan.buf l'.scan.buf := by
          rcases scanPage_cases hstep with ⟨-, -, hs⟩ | ⟨order, -, hs⟩
          · rw [hs]
            exact .refl _
          · rw [(Prod.mk.inj hs).1]
            exact shrinks_excludeBlock l.pfn order c l.scan
        exact hl.trans (shrinks_scanPages fuel h)

theorem shrinks_excludePages {fuel : Nat} {junk : Nat → List UInt8} {mmd : MemMap} {s s' : Scan}
    (h : excludePages m level c fuel junk mmd s = .ok s') : Shrinks s.buf s'.buf := by
  have hstart : Shrinks s.buf (startPages c junk mmd s).scan.buf := by
    unfold startPages
    split
    · exact shrinks_excludeRange _ _ c s
    · exact .refl _
  exact hstart.trans (shrinks_scanPages fuel h)

theorem shrinks_memMaps {fuel : Nat} {junk : MemMap → Nat → List UInt8} :
    ∀ (l : List MemMap) {s s' : Scan},
    l.foldlM (fun s mmd => if mmd.mapped && mmd.pfnEnd ≥ c.startPfn && mmd.pfnStart ≤ c.endPfn then
      excludePages m level c fuel (junk mmd) mmd s else .ok s) s = .ok s' → Shrinks s.buf s'.buf
  | [], _, _, h => by
    cases h
    exact .refl _
  | mmd :: l, s, s', h => by
    rw [List.foldlM_cons] at h
    split at h
    case isFalse => exact shrinks_memMaps l h
    case isTrue =>
      cases h1 : excludePages m level c fuel (junk mmd) mmd s with
      | error e =>
        rw [h1] at h
        cases h
      | ok s₁ =>
        rw [h1] at h
        exact (shrinks_excludePages h1).trans (shrinks_memMaps l h)

/-- A step of a `do` block that is made or not. -/
theorem shrinks_iteBind {α β : Type} {p : Prop} [Decidable p] {x : Except Stop α} {a : α} {b : β}
    {f : α → Except Stop β} (g : α → List UInt8) (hx : ∀ a', x = .ok a' → Shrinks (g a) (g a'))
    (h : (if p then x >>= f else Except.ok a >>= f) = .ok b) :
    ∃ a', Shrinks (g a) (g a') ∧ f a' = .ok b := by
  split at h
  case isTrue =>
    cases x with
    | error e => cases h
    | ok a' => exact ⟨a', hx a' rfl, h⟩
  case isFalse => exact ⟨a, .refl _, h⟩

theorem orFail_eq_ok {α : Type} {x : Option α} {a : α} (h : orFail x = .ok a) : x = some a := by
  cases x with
  | none => cases h
  | some b =>
    cases h
    rfl

/-- **The filters of a window only clear bits.** -/
theorem create2ndBitmap_shrinks {elf : Bool} {bufsizeCyclic fuel : Nat}
    {junk : MemMap → Nat → List UInt8} {pend : Nat × Nat} {s : Scan}
    (h : create2ndBitmap m elf level bufsizeCyclic fuel junk c pend = .ok s) :
    Shrinks (createBitmapFromMemhole (m.info bufsizeCyclic) false c 0).2.buf s.buf := by
  unfold create2ndBitmap at h
  obtain ⟨s₁, e1, h⟩ := shrinks_iteBind Scan.buf (fun _ h => shrinks_memMaps m.memMaps h) h
  obtain ⟨buf₂, e2, h⟩ := shrinks_iteBind id
    (fun _ h => shrinks_excludeFreePage (orFail_eq_ok h)) h
  obtain ⟨buf₃, e3, h⟩ := shrinks_iteBind id
    (fun _ h => shrinks_excludeZeroPages _ (orFail_eq_ok h)) h
  cases h
  exact (shrinks_excludeNodataPages m c _).trans (e1.trans (e2.trans e3))

/-! ## The bytes -/

theorem isOn_bitmapBytes_all (bit : Nat → Bool) (start : Nat) {n i : Nat}
    (h : i < 8 * divideup n 8) :
    isOn (bitmapBytes bit start n) i = (decide (i < n) && bit (start + i)) := by
  unfold isOn
  rw [getD_bitmapBytes bit start (by omega), testBit_packByte _ (Nat.mod_lt _ (by decide)),
    Nat.div_add_mod]

/-- **The bytes of a window**: with the bits of its pages and no others, they are their bitmap. -/
theorem take_window {bit : Nat → Bool} (hlen : divideup (c.endPfn - c.startPfn) 8 ≤ buf.length)
    (hbits : ∀ k, isOn buf k = true ↔ c.startPfn + k < c.endPfn ∧ bit (c.startPfn + k) = true) :
    buf.take (divideup (c.endPfn - c.startPfn) 8) =
      bitmapBytes bit c.startPfn (c.endPfn - c.startPfn) := by
  apply ext_byteAt
  · rw [List.length_take, length_bitmapBytes, Nat.min_eq_left hlen]
  · intro k hk
    rw [List.length_take] at hk
    have htake : byteAt (buf.take (divideup (c.endPfn - c.startPfn) 8)) k = byteAt buf k := by
      unfold byteAt
      rw [List.getD_eq_getElem?_getD, List.getD_eq_getElem?_getD, List.getElem?_take_of_lt
        (by omega)]
    rw [htake]
    refine byteAt_eq_of_bits fun j hj => ?_
    rw [isOn_bitmapBytes_all bit c.startPfn (by omega), Bool.eq_iff_iff, hbits, Bool.and_eq_true,
      decide_eq_true_eq]
    refine and_congr_left fun _ => ?_
    omega

end Bitmap
