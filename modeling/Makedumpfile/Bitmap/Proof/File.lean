import Makedumpfile.Bitmap.File
import Mathlib.Logic.Function.Basic

/-!
# The bitmap file is a bit array

`Inv` says what the file and the buffer hold together: the bits of the block in the buffer are in
the buffer, all others in the file, and when nothing was set since the last `sync_bitmap` all of
them are in the file. Each call keeps it as long as the offset of a block fits the `int` product
`BUFSIZE_BITMAP * no_block`, which is up to `max_mapnr = 2 ^ 34` (`bitmap_file_refines_iff`).
-/

namespace Bitmap

open Lib ByteFile

/-! ## The bit array -/

/-- What the calls return over an array of bits. -/
def specRun (bits : Nat → Bool) : List Op → List Bool
  | [] => []
  | .set pfn val :: ops => true :: specRun (Function.update bits pfn val) ops
  | .sync :: ops => true :: specRun bits ops
  | .isDumpable pfn :: ops => bits pfn :: specRun bits ops

/-- The pages are below `limit`, and no `is_dumpable_file` comes between a `set_bitmap_file` and the
next `sync_bitmap`; `dirty` says that a bit was set before. -/
def Synced (limit : Nat) : Bool → List Op → Prop
  | _, [] => True
  | _, .set pfn _ :: ops => pfn < limit ∧ Synced limit true ops
  | _, .sync :: ops => Synced limit false ops
  | dirty, .isDumpable pfn :: ops => dirty = false ∧ pfn < limit ∧ Synced limit dirty ops

/-- The bits of the bitmap in the file. -/
def FileBitmap.bits (b : FileBitmap) (pfn : Nat) : Bool := isOn b.file (8 * b.offset + pfn)

/-- A run returns what the bit array returns, and changes no bit of the file but those it sets. -/
structure Refines (b : FileBitmap) (ops : List Op) : Prop where
  returns : (run ops b).1 = specRun b.bits ops
  length : (run ops b).2.file.length = b.file.length
  others : ∀ q, (∀ pfn val, Op.set pfn val ∈ ops → q ≠ 8 * b.offset + pfn) →
    isOn (run ops b).2.file q = isOn b.file q

/-! ## The invariant -/

/-- The bit `q` of the file is in block `k` of the bitmap. -/
def InBlock (off k q : Nat) : Prop := 8 * off + 32768 * k ≤ q ∧ q < 8 * off + 32768 * (k + 1)

/-- `cur` are the bits of the file as set so far; `dirty` allows the buffer to be ahead. -/
structure Inv (b : FileBitmap) (blocks : Nat) (cur : Nat → Bool) (dirty : Bool) : Prop where
  room : b.offset + 4096 * blocks ≤ b.file.length
  buf : b.buf.length = 4096
  block : b.noBlock = -1 ∨ ∃ k < blocks, b.noBlock = (k : Nat) ∧
    ∀ i < 32768, isOn b.buf i = cur (8 * b.offset + 32768 * k + i)
  rest : ∀ q, (∀ k : Nat, b.noBlock = k → ¬ InBlock b.offset k q) → isOn b.file q = cur q
  clean : dirty = false → ∀ q, isOn b.file q = cur q

variable {b : FileBitmap} {blocks : Nat} {cur : Nat → Bool} {dirty : Bool}

/-- The buffer of a block that fits the `int` product goes to its place. -/
theorem oldOffset_eq {k : Nat} (hk : b.noBlock = k) (h : k < 2 ^ 19) :
    b.oldOffset = ((b.offset + 4096 * k : Nat) : Int) := by
  unfold FileBitmap.oldOffset bufsizeBitmap
  rw [hk, i32_of_fits (by omega) (by omega)]
  push_cast
  ring

theorem oldOffset_neg (hk : b.noBlock = -1) : b.oldOffset = b.offset - 4096 := by
  unfold FileBitmap.oldOffset bufsizeBitmap
  rw [hk, i32_of_fits (by omega) (by omega)]
  ring

theorem newOffset_eq (b : FileBitmap) (pfn : Nat) :
    b.newOffset pfn = b.offset + 4096 * (pfn / 32768) := rfl

theorem Inv.clean_of_neg (h : Inv b blocks cur dirty) (hk : b.noBlock = -1) (q : Nat) :
    isOn b.file q = cur q := by
  apply h.rest
  intro k hk'
  omega

/-- **Writing the buffer back** makes the file hold every bit. -/
theorem Inv.writeBuf (h : Inv b blocks cur dirty) {k : Nat} (hk : b.noBlock = k)
    (hlt : k < 2 ^ 19) :
    ∃ b', b.writeBuf b.oldOffset = (true, b') ∧ Inv b' blocks cur false ∧ b'.offset = b.offset ∧
      b'.noBlock = b.noBlock ∧ b'.file.length = b.file.length ∧ ∀ q, isOn b'.file q = cur q := by
  obtain hneg | ⟨k', hk', hkk', hbuf⟩ := h.block
  · omega
  obtain rfl : k = k' := by omega
  have hroom := h.room
  have hblen := h.buf
  have hlen : (pwrite b.file (b.offset + 4096 * k) b.buf).length = b.file.length := by
    rw [length_pwrite]
    split <;> omega
  have hfile : ∀ q, isOn (pwrite b.file (b.offset + 4096 * k) b.buf) q = cur q := by
    intro q
    rw [isOn_pwrite, hblen]
    by_cases hq : InBlock b.offset k q
    · unfold InBlock at hq
      rw [if_pos (by omega), hbuf _ (by omega)]
      congr 1
      omega
    · rw [if_neg (by unfold InBlock at hq; omega)]
      apply h.rest
      intro j hj
      obtain rfl : j = k := by omega
      exact hq
  refine ⟨{ b with file := pwrite b.file (b.offset + 4096 * k) b.buf }, ?_, ?_, rfl, rfl, hlen, hfile⟩
  · unfold FileBitmap.writeBuf
    rw [oldOffset_eq hk hlt, if_neg (by omega), Int.toNat_natCast]
  · exact { room := by simpa only [hlen] using hroom, buf := hblen, block := h.block,
            rest := fun q _ => hfile q, clean := fun _ => hfile }

/-- **Loading a block** of the bitmap. -/
theorem Inv.readBuf (h : Inv b blocks cur false) {k : Nat} (hk : k < blocks) :
    ∃ b', b.readBuf (b.offset + 4096 * k) = (true, b') ∧ b'.file = b.file ∧ b'.offset = b.offset ∧
      Inv { b' with noBlock := (k : Nat) } blocks cur false := by
  have hroom := h.room
  have hlen : (pread b.file (b.offset + 4096 * k) bufsizeBitmap).length = 4096 := by
    rw [length_pread]
    unfold bufsizeBitmap
    omega
  have hdrop : b.buf.drop 4096 = [] := List.drop_eq_nil_of_le (by rw [h.buf])
  refine ⟨{ b with buf := pread b.file (b.offset + 4096 * k) bufsizeBitmap }, ?_, rfl, rfl, ?_⟩
  · unfold FileBitmap.readBuf
    dsimp only
    rw [hlen, hdrop, List.append_nil]
    rfl
  · refine { room := hroom, buf := hlen, block := .inr ⟨k, hk, rfl, fun i hi => ?_⟩,
             rest := fun q _ => h.clean rfl q, clean := h.clean }
    dsimp only
    rw [isOn_pread b.file _ (by unfold bufsizeBitmap; omega), h.clean rfl]
    congr 1
    omega

/-- Setting a bit of the block in the buffer. -/
theorem Inv.setBit (h : Inv b blocks cur dirty) {pfn : Nat} (hk : b.noBlock = (pfn / 32768 : Nat))
    (val : Bool) :
    Inv { b with buf := Lib.setBit b.buf (pfn % 32768) val } blocks
      (Function.update cur (8 * b.offset + pfn) val) true := by
  obtain hneg | ⟨k, hlt, hkk, hbuf⟩ := h.block
  · omega
  obtain rfl : k = pfn / 32768 := by omega
  have hblen := h.buf
  refine { room := h.room, buf := by simpa using hblen, block := .inr ⟨_, hlt, hkk, fun i hi => ?_⟩,
           rest := fun q hq => ?_, clean := fun hd => by cases hd }
  · dsimp only
    rw [isOn_setBit (by omega), Function.update_apply, hbuf i hi]
    by_cases he : i = pfn % 32768
    · rw [if_pos he, if_pos (by omega)]
    · rw [if_neg he, if_neg (by omega)]
  · dsimp only at hq ⊢
    have hne : q ≠ 8 * b.offset + pfn := by
      rintro rfl
      exact hq _ hkk ⟨by omega, by omega⟩
    rw [Function.update_of_ne hne]
    exact h.rest q hq

/-! ## The calls -/

/-- The block of `pfn` is in the buffer. -/
theorem setBitmapFile_same {pfn : Nat} (h : b.oldOffset = b.newOffset pfn) (val : Bool) :
    setBitmapFile b pfn val =
      (true, { b with buf := Lib.setBit b.buf (pfn % 32768) val }) := by
  simp [setBitmapFile, h, pfnBufbitmap]

/-- Nothing is in the buffer yet. -/
theorem setBitmapFile_first {pfn : Nat} (hn : b.noBlock < 0) (hne : b.oldOffset ≠ b.newOffset pfn)
    {b1 : FileBitmap} (h1 : b.readBuf (b.newOffset pfn) = (true, b1)) (val : Bool) :
    setBitmapFile b pfn val = (true, { b1 with
      noBlock := i32 (pfn / 32768 : Nat), buf := Lib.setBit b1.buf (pfn % 32768) val }) := by
  have hn' : ¬ (0 ≤ b.noBlock) := by omega
  simp [setBitmapFile, hn', hne, h1, pfnBufbitmap]

/-- Another block is in the buffer. -/
theorem setBitmapFile_other {pfn : Nat} (hn : 0 ≤ b.noBlock) (hne : b.oldOffset ≠ b.newOffset pfn)
    {b1 b2 : FileBitmap} (h1 : b.writeBuf b.oldOffset = (true, b1))
    (h2 : b1.readBuf (b.newOffset pfn) = (true, b2)) (val : Bool) :
    setBitmapFile b pfn val = (true, { b2 with
      noBlock := i32 (pfn / 32768 : Nat), buf := Lib.setBit b2.buf (pfn % 32768) val }) := by
  simp [setBitmapFile, hn, hne, h1, h2, pfnBufbitmap]

/-- **`set_bitmap_file`**, of a page whose block fits the `int` product. -/
theorem setBitmapFile_inv (h : Inv b blocks cur dirty) (hb : blocks ≤ 2 ^ 19) {pfn : Nat}
    (hp : pfn / 32768 < blocks) (val : Bool) :
    ∃ b', setBitmapFile b pfn val = (true, b') ∧
      Inv b' blocks (Function.update cur (8 * b.offset + pfn) val) true ∧ b'.offset = b.offset ∧
      b'.file.length = b.file.length ∧
      ∀ q, isOn b'.file q = isOn b.file q ∨ isOn b'.file q = cur q := by
  have hnew := newOffset_eq b pfn
  have hno : i32 (pfn / 32768 : Nat) = (pfn / 32768 : Nat) := i32_of_fits (by omega) (by omega)
  obtain hneg | ⟨k, hlt, hkk, -⟩ := h.block
  · have hold := oldOffset_neg hneg
    have hclean : Inv b blocks cur false := { h with clean := fun _ => h.clean_of_neg hneg }
    obtain ⟨b1, h1, hf1, ho1, hi1⟩ := hclean.readBuf hp
    have hi2 := hi1.setBit rfl val
    refine ⟨_, setBitmapFile_first (by omega) (by rw [hold, hnew]; omega) (by rw [hnew]; exact h1) val,
      ?_, ho1, congrArg List.length hf1, fun q => .inl (congrArg (isOn · q) hf1)⟩
    rw [hno, ← ho1]
    exact hi2
  · have hold := oldOffset_eq hkk (by omega)
    by_cases hsame : k = pfn / 32768
    · subst hsame
      refine ⟨_, setBitmapFile_same (by rw [hold, hnew]) val, h.setBit hkk val, rfl, rfl,
        fun q => .inl rfl⟩
    · obtain ⟨b1, h1, hi1, ho1, hn1, hl1, hf1⟩ := h.writeBuf hkk (by omega)
      obtain ⟨b2, h2, hf2, ho2, hi2⟩ := hi1.readBuf hp
      have hi3 := hi2.setBit rfl val
      rw [ho1] at h2
      refine ⟨_, setBitmapFile_other (by omega) (by rw [hold, hnew]; omega) h1 (by rw [hnew]; exact h2)
        val, ?_, ho2.trans ho1, (congrArg List.length hf2).trans hl1, fun q => .inr ?_⟩
      · rw [hno, ← ho1, ← ho2]
        exact hi3
      · dsimp only
        rw [hf2, hf1]

/-- **`sync_bitmap`**. -/
theorem syncBitmap_inv (h : Inv b blocks cur dirty) (hb : blocks ≤ 2 ^ 19) :
    ∃ b', syncBitmap b = (true, b') ∧ Inv b' blocks cur false ∧ b'.offset = b.offset ∧
      b'.file.length = b.file.length ∧ ∀ q, isOn b'.file q = cur q := by
  unfold syncBitmap
  obtain hneg | ⟨k, hlt, hkk, -⟩ := h.block
  · rw [if_pos (by omega)]
    exact ⟨b, rfl, { h with clean := fun _ => h.clean_of_neg hneg }, rfl, rfl, h.clean_of_neg hneg⟩
  · rw [if_neg (by omega)]
    obtain ⟨b1, h1, hi1, ho1, -, hl1, hf1⟩ := h.writeBuf hkk (by omega)
    exact ⟨b1, h1, hi1, ho1, hl1, hf1⟩

/-- Looking at a page after a `sync_bitmap` brings its block into the buffer. -/
theorem load_inv (h : Inv b blocks cur false) (hb : blocks ≤ 2 ^ 19) {pfn : Nat}
    (hp : pfn / 32768 < blocks) :
    Inv (b.load pfn) blocks cur false ∧ (b.load pfn).offset = b.offset ∧
      (b.load pfn).file = b.file ∧ (b.load pfn).noBlock = (pfn / 32768 : Nat) := by
  unfold FileBitmap.load pfnBufbitmap
  by_cases hload : pfn = 0 ∨ b.noBlock % 2 ^ 64 ≠ (pfn / 32768 : Nat)
  · rw [if_pos hload]
    obtain ⟨b1, h1, hf1, ho1, hi1⟩ := h.readBuf hp
    rw [newOffset_eq, h1, i32_of_fits (by omega) (by omega)]
    exact ⟨hi1, ho1, hf1, rfl⟩
  · rw [if_neg hload]
    refine ⟨h, rfl, rfl, ?_⟩
    obtain hneg | ⟨k, hlt, hkk, -⟩ := h.block
    · rw [hneg] at hload
      omega
    · rw [hkk] at hload ⊢
      omega

/-- **`is_dumpable_file`** after a `sync_bitmap`. -/
theorem isDumpableFile_inv (h : Inv b blocks cur false) (hb : blocks ≤ 2 ^ 19) {pfn : Nat}
    (hp : pfn / 32768 < blocks) :
    ∃ b', isDumpableFile b pfn = (cur (8 * b.offset + pfn), b') ∧ Inv b' blocks cur false ∧
      b'.offset = b.offset ∧ b'.file = b.file := by
  obtain ⟨hi, ho, hf, hk⟩ := load_inv h hb hp
  refine ⟨b.load pfn, ?_, hi, ho, hf⟩
  obtain hneg | ⟨k, hlt, hkk, hbuf⟩ := hi.block
  · omega
  obtain rfl : k = pfn / 32768 := by omega
  unfold isDumpableFile
  rw [show pfnBufbitmap = 32768 from rfl, hbuf _ (Nat.mod_lt _ (by decide)), ho,
    show 8 * b.offset + 32768 * (pfn / 32768) + pfn % 32768 = 8 * b.offset + pfn by omega]

/-! ## Runs -/

/-- **A run** of calls on the pages of a bitmap of at most `2 ^ 19` blocks. -/
theorem run_inv (hb : blocks ≤ 2 ^ 19) {limit : Nat} (hl : ∀ pfn < limit, pfn / 32768 < blocks) :
    ∀ (ops : List Op) (b : FileBitmap) (cur : Nat → Bool) (dirty : Bool), Inv b blocks cur dirty →
      Synced limit dirty ops →
      (run ops b).1 = specRun (fun pfn => cur (8 * b.offset + pfn)) ops ∧
      (run ops b).2.file.length = b.file.length ∧
      ∀ q, isOn b.file q = cur q → (∀ pfn val, Op.set pfn val ∈ ops → q ≠ 8 * b.offset + pfn) →
        isOn (run ops b).2.file q = cur q := by
  intro ops
  induction ops with
  | nil =>
    intro b cur dirty _ _
    exact ⟨rfl, rfl, fun q hq _ => hq⟩
  | cons op ops ih =>
    intro b cur dirty h hs
    cases op with
    | set pfn val =>
      obtain ⟨hlt, hs⟩ := hs
      obtain ⟨b1, h1, hi1, ho1, hl1, hf1⟩ := setBitmapFile_inv h hb (hl pfn hlt) val
      obtain ⟨hr, hlen, hq'⟩ := ih b1 _ true hi1 hs
      simp only [run, step, h1, specRun, List.cons.injEq, true_and]
      refine ⟨?_, hlen.trans hl1, fun q hq hop => ?_⟩
      · rw [hr, ho1]
        congr 1
        funext p
        simp only [Function.update_apply, Nat.add_left_cancel_iff]
      · have hne : q ≠ 8 * b.offset + pfn := hop pfn val (by simp)
        have hupd : Function.update cur (8 * b.offset + pfn) val q = cur q :=
          Function.update_of_ne hne _ _
        rw [← hupd]
        apply hq'
        · rw [hupd]
          obtain hf | hf := hf1 q
          · rw [hf, hq]
          · exact hf
        · intro p v hmem
          rw [ho1]
          exact hop p v (List.mem_cons_of_mem _ hmem)
    | sync =>
      obtain ⟨b1, h1, hi1, ho1, hl1, hf1⟩ := syncBitmap_inv h hb
      obtain ⟨hr, hlen, hq'⟩ := ih b1 _ false hi1 hs
      simp only [run, step, h1, specRun, List.cons.injEq, true_and]
      refine ⟨by rw [hr, ho1], hlen.trans hl1, fun q hq hop => hq' q (hf1 q) fun p v hmem => ?_⟩
      rw [ho1]
      exact hop p v (List.mem_cons_of_mem _ hmem)
    | isDumpable pfn =>
      obtain ⟨rfl, hlt, hs⟩ := hs
      obtain ⟨b1, h1, hi1, ho1, hf1⟩ := isDumpableFile_inv h hb (hl pfn hlt)
      obtain ⟨hr, hlen, hq'⟩ := ih b1 _ false hi1 hs
      simp only [run, step, h1, specRun, List.cons.injEq, true_and]
      refine ⟨by rw [hr, ho1], by rw [hlen, hf1], fun q hq hop => hq' q (by rw [hf1, hq]) ?_⟩
      intro p v hmem
      rw [ho1]
      exact hop p v (List.mem_cons_of_mem _ hmem)

theorem inv_init {offset : Nat} {file : ByteFile} (h : offset + 4096 * blocks ≤ file.length) :
    Inv { offset, file } blocks (isOn file) false :=
  { room := h, buf := List.length_replicate, block := .inl rfl, rest := fun _ _ => rfl,
    clean := fun _ _ => rfl }

theorem refines_of_le {offset maxMapnr : Nat} {file : ByteFile}
    (hfile : offset + 4096 * divideup maxMapnr 32768 ≤ file.length) (hmax : maxMapnr ≤ 2 ^ 34)
    {ops : List Op} (hs : Synced maxMapnr false ops) : Refines { offset, file } ops := by
  have hb : divideup maxMapnr 32768 ≤ 2 ^ 19 := by
    unfold divideup
    omega
  have hl : ∀ pfn < maxMapnr, pfn / 32768 < divideup maxMapnr 32768 := by
    intro pfn hlt
    unfold divideup
    omega
  obtain ⟨hr, hlen, hq⟩ := run_inv hb hl ops _ _ _ (inv_init hfile) hs
  exact ⟨hr, hlen, fun q hop => hq q rfl hop⟩

/-! ## The first block that does not fit -/

/-- A page whose block is not in the buffer is read from the file. -/
theorem isDumpableFile_load (b : FileBitmap) {pfn : Nat}
    (hne : pfn = 0 ∨ b.noBlock % 2 ^ 64 ≠ (pfn / 32768 : Nat))
    (hroom : b.newOffset pfn + 4096 ≤ b.file.length) :
    (isDumpableFile b pfn).1 = isOn b.file (8 * b.offset + pfn) ∧
      (isDumpableFile b pfn).2.file = b.file ∧ (isDumpableFile b pfn).2.offset = b.offset ∧
      (isDumpableFile b pfn).2.noBlock = i32 (pfn / 32768 : Nat) := by
  have hlen : (pread b.file (b.newOffset pfn) 4096).length = 4096 := by
    rw [length_pread]
    omega
  have hmod : pfn % 32768 < 8 * 4096 := Nat.mod_lt _ (by decide)
  have hload : b.load pfn = { (b.readBuf (b.newOffset pfn)).2 with
      noBlock := i32 (pfn / 32768 : Nat) } := if_pos hne
  unfold isDumpableFile
  rw [hload]
  refine ⟨?_, rfl, rfl, rfl⟩
  unfold FileBitmap.readBuf bufsizeBitmap pfnBufbitmap
  dsimp only
  have hleft : isOn (pread b.file (b.newOffset pfn) 4096 ++ b.buf.drop 4096) (pfn % 32768) =
      isOn (pread b.file (b.newOffset pfn) 4096) (pfn % 32768) := by
    unfold isOn
    rw [List.getD_eq_getElem?_getD, List.getElem?_append_left (by omega),
      ← List.getD_eq_getElem?_getD]
  rw [hlen, hleft, isOn_pread _ _ hmod, newOffset_eq]
  congr 1
  omega

/-- The calls that show it: the bit of page `2 ^ 34` is changed, written back, and read again after
another block was in the buffer. -/
def farOps (val : Bool) : List Op := [.set (2 ^ 34) val, .sync, .isDumpable 0, .isDumpable (2 ^ 34)]

theorem farOps_synced {maxMapnr : Nat} (h : 2 ^ 34 < maxMapnr) (val : Bool) :
    Synced maxMapnr false (farOps val) :=
  ⟨h, rfl, by omega, rfl, h, trivial⟩

theorem oldOffset_far (hk : b.noBlock = (2 ^ 19 : Nat)) : b.oldOffset = b.offset - 2 ^ 31 := by
  unfold FileBitmap.oldOffset bufsizeBitmap
  rw [hk]
  rfl

/-- **From page `2 ^ 34` on** a bit set is lost: `sync_bitmap` fails, or writes the block 4 GiB too
low. -/
theorem not_refines_far {offset : Nat} {file : ByteFile}
    (hfile : offset + 4096 * (2 ^ 19 + 1) ≤ file.length) :
    ¬ Refines { offset, file } (farOps !(isOn file (8 * offset + 2 ^ 34))) := by
  intro h
  have hret := h.returns
  generalize hval : (!(isOn file (8 * offset + 2 ^ 34))) = val at hret
  -- the block is loaded and the bit set in the buffer
  obtain ⟨b1, h1, ho1, hf1, hk1, hbuf1⟩ : ∃ b1, setBitmapFile { offset, file } (2 ^ 34) val = (true, b1) ∧
      b1.offset = offset ∧ b1.file = file ∧ b1.noBlock = (2 ^ 19 : Nat) ∧ b1.buf.length = 4096 := by
    obtain ⟨b0, h0, hf0, ho0, hi0⟩ :=
      (inv_init hfile).readBuf (show 2 ^ 19 < 2 ^ 19 + 1 by decide)
    have hnew : (⟨offset, file, -1, List.replicate bufsizeBitmap 0⟩ : FileBitmap).newOffset (2 ^ 34) =
        offset + 4096 * 2 ^ 19 := rfl
    refine ⟨_, setBitmapFile_first (by dsimp only; omega) ?_ (by rw [hnew]; exact h0) val, ho0, hf0,
      rfl, by simpa using hi0.buf⟩
    rw [oldOffset_neg rfl, hnew]
    dsimp only
    omega
  have hold := oldOffset_far hk1
  have hneg : ¬ b1.noBlock < 0 := by omega
  simp only [farOps, run, step, specRun, h1, List.cons.injEq, true_and, and_true,
    Function.update_self] at hret
  obtain ⟨hsync, -, hlast⟩ := hret
  unfold syncBitmap at hsync hlast
  rw [if_neg hneg] at hsync hlast
  unfold FileBitmap.writeBuf at hsync hlast
  by_cases hlow : b1.oldOffset < 0
  · rw [if_pos hlow] at hsync
    cases hsync
  · rw [if_neg hlow] at hlast
    dsimp only at hlast
    set b2 : FileBitmap := { b1 with file := pwrite b1.file b1.oldOffset.toNat b1.buf } with hb2
    have hlen2 : file.length ≤ b2.file.length := by
      rw [hb2, ← hf1]
      exact le_length_pwrite _ _ _
    have ho2 : b2.offset = offset := ho1
    obtain ⟨-, hf3, ho3, hk3⟩ := isDumpableFile_load b2 (.inl rfl) (by
      rw [newOffset_eq, ho2]
      omega)
    obtain ⟨h4, -⟩ := @isDumpableFile_load (isDumpableFile b2 0).2 (2 ^ 34) (.inr (by
      rw [hk3]
      decide)) (by
      rw [newOffset_eq, hf3, ho3, ho2]
      omega)
    -- the block was written below its place, so the file still has the old bit
    rw [h4, hf3, ho3, ho2, hb2] at hlast
    dsimp only at hlast
    rw [isOn_pwrite, if_neg (by rw [hold, ho1, hbuf1]; omega), hf1, ← hval] at hlast
    cases hbit : isOn file (8 * offset + 2 ^ 34) <;> rw [hbit] at hlast <;> cases hlast

/-- **The bitmap file refines a bit array** exactly up to `max_mapnr = 2 ^ 34`. -/
theorem bitmap_file_refines_iff (offset maxMapnr : Nat) (file : ByteFile)
    (hfile : offset + 4096 * divideup maxMapnr 32768 ≤ file.length) :
    (∀ ops, Synced maxMapnr false ops → Refines { offset, file } ops) ↔ maxMapnr ≤ 2 ^ 34 := by
  constructor
  · intro h
    apply Classical.byContradiction
    intro hmax
    have hblocks : 2 ^ 19 + 1 ≤ divideup maxMapnr 32768 := by
      unfold divideup
      omega
    exact not_refines_far (by omega) (h _ (farOps_synced (by omega) _))
  · intro hmax ops hs
    exact refines_of_le hfile hmax hs

theorem bitmap_file_refines_one_block :
    Synced 32768 false [.set 32767 true, .sync, .isDumpable 32767] ∧
      Refines { offset := 0, file := List.replicate 4096 0 }
        [.set 32767 true, .sync, .isDumpable 32767] := by
  have hs : Synced 32768 false [.set 32767 true, .sync, .isDumpable 32767] :=
    ⟨by decide, rfl, by decide, trivial⟩
  refine ⟨hs, (bitmap_file_refines_iff 0 32768 (List.replicate 4096 0) ?_).2 (by decide) _ hs⟩
  rw [List.length_replicate]
  decide

/-- A machine with one page more than `2 ^ 34`: the bit of its last page is lost. -/
theorem bitmap_file_loses_bit :
    Synced (2 ^ 34 + 1) false (farOps true) ∧
      ¬ Refines { offset := 0, file := List.replicate (2 ^ 31 + 4096) 0 } (farOps true) := by
  refine ⟨farOps_synced (by omega) true, ?_⟩
  have hbit : isOn (List.replicate (2 ^ 31 + 4096) 0) (8 * 0 + 2 ^ 34) = false := by
    unfold isOn
    rw [List.getD_eq_getElem?_getD, List.getElem?_replicate, if_pos (by omega)]
    rfl
  have h := @not_refines_far 0 (List.replicate (2 ^ 31 + 4096) 0) (by
    rw [List.length_replicate]
    omega)
  rw [hbit] at h
  exact h

end Bitmap
