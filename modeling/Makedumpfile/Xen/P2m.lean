import Makedumpfile.Arch.Address
import Makedumpfile.Lib.Fold

/-!
# The p2m table of domain 0

`get_machdep_info_x86_64` collects the frames of the pfn-to-mfn table, `get_dom0_mapnr` counts its
entries from the last frame, and `ptom_xen` looks an entry up. The table is a tree in memory (`Tree`):
a page of frame numbers of pages of frame numbers of pages of mfns, each level with all pages full but
the last, and each page ended by its first zero.
-/

namespace Xen

open Lib

/-- `info->page_size` of x86_64. -/
def pageSize : Nat := 4096

/-- `MFNS_PER_FRAME` and `MAX_X86_64_FRAMES`. -/
def mfnsPerFrame : Nat := pageSize / 8

def pfnToPaddr (pfn : Word) : Word := pfn <<< 12

/-- A buffer of `MFNS_PER_FRAME` words from `malloc`, with what is in it. -/
structure Buffer where
  words : List Word
  length_eq : words.length = mfnsPerFrame

/-- Memory by words, the result of `get_xen_p2m_mfn`, and what is in the buffers from `malloc`: the list
of frames and the buffer of `get_dom0_mapnr`. -/
structure Machine where
  readmem : Word → Option Word
  p2mMfn : Word
  frameListJunk : Nat → Word
  mfnsJunk : Buffer

/-- `readmem` of `n` words; without any it returns the size 0, which is `FALSE`. -/
def Machine.readWords (m : Machine) (maddr : Word) (n : Nat) : Option (List Word) :=
  if n = 0 then none else (List.range n).mapM fun j => m.readmem (maddr + BitVec.ofNat 64 (8 * j))

/-- The fields of `info`. -/
structure Info where
  p2mFrames : Nat
  p2mMfnFrameList : Nat → Word
  dom0Mapnr : Nat

/-- The words before the first zero: a loop that ends with `break` or at the end of the buffer. -/
def nonzeros (buf : List Word) : Nat := (buf.takeWhile fun w => w ≠ 0#64).length

/-- Count the number of p2m frames: `mfns` up to where the loop ends. -/
def Machine.countFrames (m : Machine) : List Word → Option (List Nat)
  | [] => some []
  | frame :: frameMfn =>
    if frame = 0#64 then some [0]
    else do
      let buf ← m.readWords (pfnToPaddr frame) mfnsPerFrame
      let mfns ← m.countFrames frameMfn
      some (nonzeros buf :: mfns)

/-- The list with the words `ws` from `i` on. -/
def put (l : Nat → Word) (i : Nat) (ws : List Word) : Nat → Word :=
  fun j => if i ≤ j ∧ j < i + ws.length then ws.getD (j - i) 0#64 else l j

/-- Get `p2m_mfn_frame_list`, from the page `i` on. -/
def Machine.fillFrames (m : Machine) : (i : Nat) → (frameMfn : List Word) → (mfns : List Nat) →
    (Nat → Word) → Option (Nat → Word)
  | i, frame :: frameMfn, n :: mfns, l =>
    if frame = 0#64 then some l
    else do
      let ws ← m.readWords (pfnToPaddr frame) n
      let l := put l (i * mfnsPerFrame) ws
      if n ≠ mfnsPerFrame then some l else m.fillFrames (i + 1) frameMfn mfns l
  | _, _, _, l => some l

/-- `get_machdep_info_x86_64` with Xen. -/
def Machine.getMachdepInfo (m : Machine) : Option Info := do
  let frameMfn ← m.readWords (pfnToPaddr m.p2mMfn) mfnsPerFrame
  let mfns ← m.countFrames frameMfn
  let l ← m.fillFrames 0 frameMfn mfns m.frameListJunk
  some { p2mFrames := mfns.sum, p2mMfnFrameList := l, dom0Mapnr := 0 }

/-- `get_dom0_mapnr` without the symbol `max_pfn`. It reads `MFNS_PER_FRAME` bytes of the last frame. -/
def Machine.getDom0Mapnr (m : Machine) (info : Info) : Option Info :=
  if info.p2mFrames ≠ 0 then do
    let mfnIdx := info.p2mFrames - 1
    let maddr := pfnToPaddr (info.p2mMfnFrameList mfnIdx)
    let ws ← m.readWords maddr (mfnsPerFrame / 8)
    let mfns := ws ++ m.mfnsJunk.words.drop (mfnsPerFrame / 8)
    some { info with dom0Mapnr := mfnIdx * mfnsPerFrame + nonzeros mfns }
  else some info

/-- `ptom_xen`. -/
def Machine.ptomXen (m : Machine) (info : Info) (paddr : Word) : Word :=
  let pfn := (paddr >>> 12).toNat
  let mfnIdx := pfn / mfnsPerFrame
  let frameIdx := pfn % mfnsPerFrame
  if info.p2mFrames ≤ mfnIdx then Arch.notPaddr
  else
    let maddr := pfnToPaddr (info.p2mMfnFrameList mfnIdx) + BitVec.ofNat 64 (8 * frameIdx)
    match m.readmem maddr with
    | none => Arch.notPaddr
    | some mfn => pfnToPaddr mfn ||| (paddr &&& 0xfff#64)

/-! ## The tree -/

/-- The page of a frame holds these entries, up to the first zero. -/
def Machine.PageHolds (m : Machine) (frame : Word) (ws : List Word) : Prop :=
  ∃ rest, m.readWords (pfnToPaddr frame) mfnsPerFrame = some (ws ++ rest) ∧ (∀ w ∈ ws, w ≠ 0#64) ∧
    ∀ w, rest.head? = some w → w = 0#64

/-- The pages of the frames hold these entries, one after the other, and all but the last are full. -/
def Machine.PagesHold (m : Machine) : (frames ws : List Word) → Prop
  | [], ws => ws = []
  | frame :: frames, ws =>
    m.PageHolds frame (ws.take mfnsPerFrame) ∧ (frames ≠ [] → mfnsPerFrame ≤ ws.length) ∧
      m.PagesHold frames (ws.drop mfnsPerFrame)

/-- **A pfn-to-mfn tree**: the entries of its three levels. -/
structure Machine.Tree (m : Machine) (lists frames mfns : List Word) : Prop where
  root : m.PageHolds m.p2mMfn lists
  lists : m.PagesHold lists frames
  frames : m.PagesHold frames mfns

/-- **The table is right**: the number of entries is that of the tree, and every pfn is translated to the
entry of the tree. -/
def Machine.Translates (m : Machine) (mfns : List Word) : Prop :=
  ∃ info, m.getMachdepInfo.bind m.getDom0Mapnr = some info ∧ info.dom0Mapnr = mfns.length ∧
    ∀ pfn o : Nat, ∀ h : pfn < mfns.length, o < pageSize →
      m.ptomXen info (BitVec.ofNat 64 (pfn * pageSize + o)) =
        mfns[pfn] * BitVec.ofNat 64 pageSize + BitVec.ofNat 64 o

end Xen
