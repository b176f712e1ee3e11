import Makedumpfile.Xen.P2m

/-!
# When the p2m table is right

The counting pass and the filling pass agree on the tree, since all pages but the last are full
(`countFrames_eq`, `fillFrames_eq`), except that a last page without entries is an error. The last page
of entries is counted with the first 64 of its words only, and the others are whatever was in the buffer:
so the table is right exactly if these words do not matter (`translates_iff`).
-/

namespace Xen

open Lib

variable {m : Machine} {frame maddr : Word} {ws rest lists frames mfns : List Word} {n : Nat}

/-! ## Pages -/

theorem readWords_eq_some (hn : 0 < n) :
    m.readWords maddr n = some ws ↔
      ws.length = n ∧ ∀ j, j < n → m.readmem (maddr + BitVec.ofNat 64 (8 * j)) = ws[j]? := by
  rw [Machine.readWords, if_neg (by omega)]
  exact mapM_range_eq_some

/-- The first words of a page. -/
theorem readWords_take {k : Nat} (h : m.readWords maddr n = some ws) (hk : 0 < k) (hkn : k ≤ n) :
    m.readWords maddr k = some (ws.take k) := by
  obtain ⟨hlen, hget⟩ := (readWords_eq_some (by omega)).1 h
  refine (readWords_eq_some hk).2 ⟨by rw [List.length_take]; omega, fun j hj => ?_⟩
  rw [hget j (by omega), List.getElem?_take, if_pos hj]

theorem readWords_zero (m : Machine) (maddr : Word) : m.readWords maddr 0 = none := rfl

/-- The entries of a page are what is before its first zero. -/
theorem nonzeros_append (hws : ∀ w ∈ ws, w ≠ 0#64) (rest : List Word) :
    nonzeros (ws ++ rest) = ws.length + nonzeros rest := by
  induction ws with
  | nil => simp [nonzeros]
  | cons w ws ih =>
    have hw := hws w List.mem_cons_self
    have hrest := ih fun x hx => hws x (List.mem_cons_of_mem w hx)
    simp only [nonzeros, List.cons_append, List.length_cons] at hrest ⊢
    rw [List.takeWhile_cons, if_pos (decide_eq_true hw), List.length_cons, hrest]
    omega

theorem nonzeros_of_head (h : ∀ w, rest.head? = some w → w = 0#64) : nonzeros rest = 0 := by
  cases rest with
  | nil => rfl
  | cons w rest => simp [nonzeros, h w rfl]

/-- **A page of the tree** as the function reads it. -/
theorem Machine.PageHolds.read (h : m.PageHolds frame ws) :
    ∃ buf, m.readWords (pfnToPaddr frame) mfnsPerFrame = some buf ∧ nonzeros buf = ws.length ∧
      buf.length = mfnsPerFrame ∧ ws <+: buf := by
  obtain ⟨rest, hread, hws, hrest⟩ := h
  refine ⟨ws ++ rest, hread, ?_, ((readWords_eq_some (by decide)).1 hread).1, List.prefix_append ws rest⟩
  rw [nonzeros_append hws, nonzeros_of_head hrest, Nat.add_zero]

theorem Machine.PageHolds.length_le (h : m.PageHolds frame ws) : ws.length ≤ mfnsPerFrame := by
  obtain ⟨buf, -, -, hlen, hprefix⟩ := h.read
  rw [← hlen]
  exact hprefix.length_le

/-- A page of a level. -/
theorem Machine.PagesHold.get : ∀ {frames ws : List Word}, m.PagesHold frames ws →
    ∀ i (hi : i < frames.length), m.PageHolds frames[i] ((ws.drop (i * mfnsPerFrame)).take mfnsPerFrame)
  | frame :: frames, ws, h, 0, _ => by
    rw [Nat.zero_mul, List.drop_zero]
    exact h.1
  | frame :: frames, ws, h, i + 1, hi => by
    have hpage := h.2.2.get i (Nat.lt_of_succ_lt_succ hi)
    rw [List.drop_drop, Nat.add_comm mfnsPerFrame, ← Nat.succ_mul] at hpage
    exact hpage

/-- All pages but the last are full, and the last has at most a page of entries. -/
theorem Machine.PagesHold.length : ∀ {frames ws : List Word}, m.PagesHold frames ws →
    ws.length ≤ frames.length * mfnsPerFrame ∧ (frames.length - 1) * mfnsPerFrame ≤ ws.length
  | [], ws, h => by
    rw [show ws = [] from h]
    exact ⟨Nat.zero_le _, Nat.zero_le _⟩
  | frame :: frames, ws, ⟨hpage, hfull, hrest⟩ => by
    obtain ⟨h1, h2⟩ := hrest.length
    rw [List.length_drop] at h1 h2
    rw [List.length_cons, Nat.succ_mul, Nat.add_sub_cancel]
    refine ⟨by omega, ?_⟩
    cases frames with
    | nil => exact Nat.le_trans (Nat.le_of_eq (Nat.zero_mul _)) (Nat.zero_le _)
    | cons f fs =>
      have := hfull (List.cons_ne_nil f fs)
      rw [List.length_cons, Nat.succ_sub_one] at h2
      rw [List.length_cons, Nat.succ_mul]
      omega

/-! ## The two passes -/

/-- How many entries each page has. -/
def sizes : (frames ws : List Word) → List Nat
  | [], _ => []
  | _ :: frames, ws => (ws.take mfnsPerFrame).length :: sizes frames (ws.drop mfnsPerFrame)

theorem sum_sizes : ∀ {frames ws : List Word}, m.PagesHold frames ws →
    (sizes frames ws).sum = ws.length
  | [], ws, h => by
    rw [show ws = [] from h]
    rfl
  | frame :: frames, ws, h => by
    rw [sizes, List.sum_cons, sum_sizes h.2.2, List.length_take, List.length_drop]
    omega

/-- **The counting pass** counts the entries of every page. -/
theorem countFrames_eq (hrest : ∀ w, rest.head? = some w → w = 0#64) : ∀ {frames ws : List Word},
    m.PagesHold frames ws → (∀ f ∈ frames, f ≠ 0#64) →
    ∃ tail, m.countFrames (frames ++ rest) = some (sizes frames ws ++ tail) ∧ tail.sum = 0
  | [], ws, _, _ => by
    cases rest with
    | nil => exact ⟨[], rfl, rfl⟩
    | cons w rest =>
      refine ⟨[0], ?_, rfl⟩
      rw [List.nil_append, Machine.countFrames, if_pos (hrest w rfl)]
      rfl
  | frame :: frames, ws, ⟨hpage, _, hbelow⟩, hframes => by
    obtain ⟨buf, hread, hcount, -, -⟩ := hpage.read
    obtain ⟨tail, htail, hsum⟩ := countFrames_eq hrest hbelow fun f hf =>
      hframes f (List.mem_cons_of_mem frame hf)
    refine ⟨tail, ?_, hsum⟩
    rw [List.cons_append, Machine.countFrames, if_neg (hframes frame List.mem_cons_self), hread,
      Option.bind_eq_bind, Option.bind_some, htail, Option.bind_eq_bind, Option.bind_some, hcount]
    rfl

theorem put_of_lt {l : Nat → Word} {i j : Nat} (h : j < i) : put l i ws j = l j :=
  if_neg fun hij => Nat.not_lt.2 hij.1 h

theorem put_get {l : Nat → Word} {i j : Nat} (h : j < ws.length) : put l i ws (i + j) = ws[j] := by
  rw [put, if_pos ⟨Nat.le_add_right i j, by omega⟩, Nat.add_sub_cancel_left]
  exact (List.getD_eq_getElem _ _ h)

/-- No page is empty: all but the last are full anyway. -/
def NoneEmpty (frames ws : List Word) : Prop :=
  frames = [] ∨ (frames.length - 1) * mfnsPerFrame < ws.length

/-- The filling pass stops at an empty page. -/
theorem fillFrames_none (tail : List Nat) : ∀ {frames ws : List Word} {i : Nat} {l : Nat → Word},
    m.PagesHold frames ws → (∀ f ∈ frames, f ≠ 0#64) → ¬ NoneEmpty frames ws →
    m.fillFrames i (frames ++ rest) (sizes frames ws ++ tail) l = none
  | [], _, _, _, _, _, h => absurd (.inl rfl) h
  | frame :: frames, ws, i, l, ⟨hpage, hfull, hbelow⟩, hframes, hempty => by
    have hframe := hframes frame List.mem_cons_self
    rw [List.cons_append, sizes, List.cons_append, Machine.fillFrames, if_neg hframe]
    cases frames with
    | nil =>
      have hnil : ws = [] := by
        by_contra hne
        refine hempty (.inr ?_)
        rw [List.length_cons, List.length_nil, Nat.zero_mul]
        exact List.length_pos_iff.2 hne
      rw [hnil]
      rfl
    | cons f fs =>
      have hlen := hfull (List.cons_ne_nil f fs)
      have htake : (ws.take mfnsPerFrame).length = mfnsPerFrame := by
        rw [List.length_take]
        omega
      obtain ⟨buf, hread, -, -, -⟩ := hpage.read
      rw [htake, hread, Option.bind_eq_bind, Option.bind_some, if_neg (not_not.2 rfl)]
      refine fillFrames_none tail hbelow (fun g hg => hframes g (List.mem_cons_of_mem frame hg)) ?_
      rintro (h | h)
      · cases h
      · refine hempty (.inr ?_)
        rw [List.length_drop, List.length_cons, Nat.succ_sub_one] at h
        rw [List.length_cons, List.length_cons, Nat.succ_sub_one, Nat.succ_mul]
        omega

/-- **The filling pass** puts the entries of all pages into the list. -/
theorem fillFrames_eq (tail : List Nat) (hrest : ∀ w, rest.head? = some w → w = 0#64) :
    ∀ {frames ws : List Word} {i : Nat} {l : Nat → Word}, m.PagesHold frames ws →
    (∀ f ∈ frames, f ≠ 0#64) → NoneEmpty frames ws →
    ∃ l', m.fillFrames i (frames ++ rest) (sizes frames ws ++ tail) l = some l' ∧
      (∀ j, j < i * mfnsPerFrame → l' j = l j) ∧
      ∀ j (h : j < ws.length), l' (i * mfnsPerFrame + j) = ws[j]
  | [], ws, i, l, h, _, _ => by
    have hws : ws = [] := h
    subst hws
    refine ⟨l, ?_, fun _ _ => rfl, fun j hj => absurd hj (Nat.not_lt_zero j)⟩
    cases rest with
    | nil =>
      cases tail with
      | nil => rfl
      | cons n tail => rfl
    | cons w rest =>
      cases tail with
      | nil => rfl
      | cons n tail =>
        rw [List.nil_append, sizes, List.nil_append, Machine.fillFrames, if_pos (hrest w rfl)]
  | frame :: frames, ws, i, l, ⟨hpage, hfull, hbelow⟩, hframes, hnone => by
    have hframe := hframes frame List.mem_cons_self
    obtain ⟨buf, hread, -, -, hprefix⟩ := hpage.read
    have hlast : frames = [] ∨ mfnsPerFrame ≤ ws.length := by
      by_cases hnil : frames = []
      · exact .inl hnil
      · exact .inr (hfull hnil)
    have hbelowLen := hbelow.length
    rw [List.length_drop] at hbelowLen
    have hne : NoneEmpty frames (ws.drop mfnsPerFrame) ∧ 0 < (ws.take mfnsPerFrame).length := by
      rw [List.length_take]
      rcases hnone with h | h
      · cases h
      · rw [List.length_cons, Nat.succ_sub_one] at h
        refine ⟨?_, by unfold mfnsPerFrame pageSize; omega⟩
        cases frames with
        | nil => exact .inl rfl
        | cons f fs =>
          refine .inr ?_
          rw [List.length_drop]
          rw [List.length_cons, Nat.succ_mul] at h
          rw [List.length_cons, Nat.succ_sub_one]
          omega
    obtain ⟨hnone', hpos⟩ := hne
    have htake : m.readWords (pfnToPaddr frame) (ws.take mfnsPerFrame).length =
        some (ws.take mfnsPerFrame) := by
      obtain ⟨t, ht⟩ := hprefix
      rw [readWords_take hread hpos hpage.length_le, ← ht, List.take_left]
    rw [List.cons_append, sizes, List.cons_append, Machine.fillFrames, if_neg hframe, htake,
      Option.bind_eq_bind, Option.bind_some]
    dsimp only
    -- what this page puts stays
    have hpage1 : ∀ j (hj : j < ws.length), j < (ws.take mfnsPerFrame).length →
        put l (i * mfnsPerFrame) (ws.take mfnsPerFrame) (i * mfnsPerFrame + j) = ws[j] := by
      intro j hj h
      rw [put_get h, List.getElem_take]
    by_cases hn : (ws.take mfnsPerFrame).length = mfnsPerFrame
    · obtain ⟨l', hfill, hbefore, hget⟩ := fillFrames_eq tail hrest hbelow
        (fun g hg => hframes g (List.mem_cons_of_mem frame hg)) hnone'
        (i := i + 1) (l := put l (i * mfnsPerFrame) (ws.take mfnsPerFrame))
      rw [if_neg (not_not.2 hn)]
      refine ⟨l', hfill, fun j hj => ?_, fun j hj => ?_⟩
      · rw [hbefore j (by rw [Nat.succ_mul]; omega), put_of_lt hj]
      · by_cases hj1 : j < mfnsPerFrame
        · rw [hbefore _ (by rw [Nat.succ_mul]; omega), hpage1 j hj (by omega)]
        · have hdrop := hget (j - mfnsPerFrame) (by rw [List.length_drop]; omega)
          rw [Nat.succ_mul, show i * mfnsPerFrame + mfnsPerFrame + (j - mfnsPerFrame) =
            i * mfnsPerFrame + j by omega, List.getElem_drop] at hdrop
          rw [hdrop]
          exact getElem_congr_idx (Nat.add_sub_of_le (Nat.le_of_not_lt hj1))
    · rw [if_pos hn]
      have hlen : ws.length < mfnsPerFrame := by
        rw [List.length_take] at hn
        omega
      refine ⟨_, rfl, fun j hj => put_of_lt hj, fun j hj => hpage1 j hj ?_⟩
      rw [List.length_take]
      omega

/-- **What `get_machdep_info_x86_64` collects.** -/
theorem getMachdepInfo_some (h : m.Tree lists frames mfns) (hne : NoneEmpty lists frames) :
    ∃ info, m.getMachdepInfo = some info ∧ info.p2mFrames = frames.length ∧ info.dom0Mapnr = 0 ∧
      ∀ j (h : j < frames.length), info.p2mMfnFrameList j = frames[j] := by
  obtain ⟨⟨rest, hread, hlists, hrest⟩, hpages, -⟩ := h
  obtain ⟨tail, hcount, hsum⟩ := countFrames_eq hrest hpages hlists
  obtain ⟨l, hfill, -, hget⟩ := fillFrames_eq (m := m) tail hrest hpages hlists hne
    (i := 0) (l := m.frameListJunk)
  refine ⟨_, by rw [Machine.getMachdepInfo, hread, Option.bind_eq_bind, Option.bind_some, hcount,
    Option.bind_eq_bind, Option.bind_some, hfill, Option.bind_eq_bind, Option.bind_some], ?_, rfl, ?_⟩
  · dsimp only
    rw [List.sum_append, sum_sizes hpages, hsum, Nat.add_zero]
  · intro j hj
    have hj' := hget j hj
    rw [Nat.zero_mul, Nat.zero_add] at hj'
    exact hj'

theorem getMachdepInfo_none (h : m.Tree lists frames mfns) (hempty : ¬ NoneEmpty lists frames) :
    m.getMachdepInfo = none := by
  obtain ⟨⟨rest, hread, hlists, hrest⟩, hpages, -⟩ := h
  obtain ⟨tail, hcount, -⟩ := countFrames_eq hrest hpages hlists
  rw [Machine.getMachdepInfo, hread, Option.bind_eq_bind, Option.bind_some, hcount,
    Option.bind_eq_bind, Option.bind_some, fillFrames_none tail hpages hlists hempty]
  rfl

/-! ## The last page -/

/-- The words that are not read do not matter, or happen to be right. -/
def CountOk (junk : Buffer) (count : Nat) : Prop :=
  count < mfnsPerFrame / 8 ∨ nonzeros (junk.words.drop (mfnsPerFrame / 8)) = count - mfnsPerFrame / 8

theorem nonzeros_last (hpage : m.PageHolds frame ws) (junk : Buffer) :
    ∃ words, m.readWords (pfnToPaddr frame) (mfnsPerFrame / 8) = some words ∧
      (nonzeros (words ++ junk.words.drop (mfnsPerFrame / 8)) = ws.length ↔ CountOk junk ws.length) := by
  have hle := hpage.length_le
  obtain ⟨rest, hread, hws, hrest⟩ := hpage
  have hlen := ((readWords_eq_some (by decide)).1 hread).1
  refine ⟨_, readWords_take hread (by decide) (by decide), ?_⟩
  unfold CountOk
  generalize junk.words.drop (mfnsPerFrame / 8) = J
  have h64 : mfnsPerFrame / 8 = 64 := rfl
  have h512 : mfnsPerFrame = 512 := rfl
  rw [h64]
  rw [h512, List.length_append] at hlen
  by_cases hcount : ws.length < 64
  · refine iff_of_true ?_ (.inl hcount)
    rw [List.take_append, List.take_of_length_le (by omega), List.append_assoc, nonzeros_append hws]
    -- the first zero is among the words that are read
    cases rest with
    | nil =>
      rw [List.length_nil] at hlen
      omega
    | cons w rest =>
      obtain ⟨k, hk⟩ : ∃ k, 64 - ws.length = k + 1 := ⟨64 - ws.length - 1, by omega⟩
      rw [hk, List.take_succ_cons, List.cons_append, hrest w rfl]
      simp [nonzeros]
  · have htake : (ws ++ rest).take 64 = ws.take 64 := List.take_append_of_le_length (by omega)
    rw [htake, nonzeros_append (fun w hw => hws w (List.mem_of_mem_take hw)), List.length_take]
    omega

/-- The number of entries from the last page. -/
theorem getDom0Mapnr_eq (hpages : m.PagesHold frames mfns) {info : Info}
    (hframes : info.p2mFrames = frames.length) (hzero : info.dom0Mapnr = 0)
    (hget : ∀ j (h : j < frames.length), info.p2mMfnFrameList j = frames[j]) :
    ∃ info', m.getDom0Mapnr info = some info' ∧ info'.p2mFrames = info.p2mFrames ∧
      info'.p2mMfnFrameList = info.p2mMfnFrameList ∧
      (info'.dom0Mapnr = mfns.length ↔
        frames = [] ∨ CountOk m.mfnsJunk (mfns.length - (frames.length - 1) * mfnsPerFrame)) := by
  obtain ⟨hle, hge⟩ := hpages.length
  unfold Machine.getDom0Mapnr
  by_cases hnil : frames = []
  · subst hnil
    rw [hframes, List.length_nil, if_neg (by simp)]
    refine ⟨info, rfl, hframes, rfl, iff_of_true ?_ (.inl rfl)⟩
    rw [hzero, show mfns = [] from hpages]
    rfl
  · have hpos : 0 < frames.length := List.length_pos_iff.2 hnil
    have hpage := hpages.get (frames.length - 1) (by omega)
    obtain ⟨words, hread, hcount⟩ := nonzeros_last hpage m.mfnsJunk
    have hlen : ((mfns.drop ((frames.length - 1) * mfnsPerFrame)).take mfnsPerFrame).length =
        mfns.length - (frames.length - 1) * mfnsPerFrame := by
      have hsucc : frames.length * mfnsPerFrame =
          (frames.length - 1) * mfnsPerFrame + mfnsPerFrame := by
        rw [← Nat.succ_mul, Nat.succ_eq_add_one, Nat.sub_add_cancel hpos]
      rw [List.length_take, List.length_drop]
      omega
    rw [hlen] at hcount
    rw [hframes, if_pos (by omega)]
    dsimp only
    rw [hget _ (by omega), hread, Option.bind_eq_bind, Option.bind_some]
    refine ⟨_, rfl, rfl, rfl, ?_⟩
    dsimp only
    constructor
    · intro h
      exact .inr (hcount.1 (by omega))
    · intro h
      have := hcount.2 (h.resolve_left hnil)
      omega

/-! ## Translation -/

/-- The shifted mfn with the offset. -/
theorem shift_or_offset (mfn : Word) {o : Nat} (ho : o < pageSize) :
    pfnToPaddr mfn ||| BitVec.ofNat 64 o = mfn * BitVec.ofNat 64 pageSize + BitVec.ofNat 64 o := by
  have hdisjoint : pfnToPaddr mfn &&& BitVec.ofNat 64 o = 0#64 := by
    apply BitVec.eq_of_getLsbD_eq
    intro i hi
    rw [BitVec.getLsbD_and, BitVec.getLsbD_zero, pfnToPaddr, BitVec.getLsbD_shiftLeft,
      BitVec.getLsbD_ofNat]
    by_cases h12 : i < 12
    · simp [h12]
    · have ho' : o < 2 ^ i := Nat.lt_of_lt_of_le ho (Nat.pow_le_pow_right (n := 2) (by decide)
        (Nat.le_of_not_lt h12))
      simp [Nat.testBit_lt_two_pow ho']
  rw [← BitVec.add_eq_or_of_and_eq_zero _ _ hdisjoint, pfnToPaddr, BitVec.shiftLeft_eq_mul_twoPow]
  rfl

/-- **Every pfn of the tree is translated to its entry.** -/
theorem ptomXen_eq (h : m.Tree lists frames mfns) {info : Info}
    (hframes : info.p2mFrames = frames.length)
    (hget : ∀ j (h : j < frames.length), info.p2mMfnFrameList j = frames[j]) {pfn o : Nat}
    (hpfn : pfn < mfns.length) (ho : o < pageSize) :
    m.ptomXen info (BitVec.ofNat 64 (pfn * pageSize + o)) =
      mfns[pfn] * BitVec.ofNat 64 pageSize + BitVec.ofNat 64 o := by
  have h1 := h.root.length_le
  have h2 := h.lists.length.1
  have h3 := h.frames.length.1
  rw [show mfnsPerFrame = 512 from rfl] at h1 h2 h3
  rw [show pageSize = 4096 from rfl] at ho
  have hidx : pfn / 512 < frames.length := by omega
  have haddr : (BitVec.ofNat 64 (pfn * pageSize + o)).toNat = pfn * 4096 + o := by
    rw [BitVec.toNat_ofNat, show pageSize = 4096 from rfl, Nat.mod_eq_of_lt (by omega)]
  have hpfn' : (BitVec.ofNat 64 (pfn * pageSize + o) >>> 12).toNat = pfn := by
    rw [BitVec.toNat_ushiftRight, haddr, Nat.shiftRight_eq_div_pow]
    omega
  have hoff : BitVec.ofNat 64 (pfn * pageSize + o) &&& 0xfff#64 = BitVec.ofNat 64 o := by
    apply BitVec.eq_of_toNat_eq
    rw [show (0xfff#64 : Word) = lowMask 12 by decide, toNat_and_lowMask _ (by decide), haddr,
      BitVec.toNat_ofNat]
    omega
  -- the entry in its page
  obtain ⟨rest, hread, -, -⟩ := h.frames.get (pfn / 512) hidx
  have hword := ((readWords_eq_some (by decide)).1 hread).2 (pfn % 512) (Nat.mod_lt _ (by decide))
  have hentry : ((mfns.drop (pfn / 512 * mfnsPerFrame)).take mfnsPerFrame ++ rest)[pfn % 512]? =
      some mfns[pfn] := by
    have hmod := Nat.mod_lt pfn (show 0 < 512 by decide)
    have hdiv := Nat.div_add_mod' pfn 512
    rw [show mfnsPerFrame = 512 from rfl, List.getElem?_append_left (by
      rw [List.length_take, List.length_drop]; omega), List.getElem?_take, if_pos hmod,
      List.getElem?_drop, hdiv, List.getElem?_eq_getElem hpfn]
  rw [hentry] at hword
  rw [Machine.ptomXen, hpfn', hframes, show mfnsPerFrame = 512 from rfl, if_neg (by omega),
    hget _ hidx]
  dsimp only
  rw [hword, hoff]
  exact shift_or_offset _ ho

/-! ## When the table is right -/

/-- **When the table is right**: no page of the list is empty, and the words behind the first 64 of the
last page of entries do not matter. -/
theorem translates_iff (h : m.Tree lists frames mfns) :
    m.Translates mfns ↔ NoneEmpty lists frames ∧
      (frames = [] ∨ CountOk m.mfnsJunk (mfns.length - (frames.length - 1) * mfnsPerFrame)) := by
  by_cases hne : NoneEmpty lists frames
  · obtain ⟨info, hinfo, hframes, hzero, hget⟩ := getMachdepInfo_some h hne
    obtain ⟨info', hinfo', hframes', hlist', hcount⟩ := getDom0Mapnr_eq h.frames hframes hzero hget
    constructor
    · rintro ⟨result, hresult, hlen, -⟩
      rw [hinfo, Option.bind_some, hinfo'] at hresult
      cases hresult
      exact ⟨hne, hcount.1 hlen⟩
    · rintro ⟨-, hok⟩
      refine ⟨info', by rw [hinfo, Option.bind_some, hinfo'], hcount.2 hok, fun pfn o hpfn ho => ?_⟩
      refine ptomXen_eq h (hframes'.trans hframes) (fun j hj => ?_) hpfn ho
      rw [hlist']
      exact hget j hj
  · refine iff_of_false ?_ fun hok => hne hok.1
    rintro ⟨result, hresult, -⟩
    rw [getMachdepInfo_none h hne] at hresult
    cases hresult

/-- Memory with the tree of `n` entries 3, with one page in every level. -/
def smallWord (n a : Nat) : Word :=
  if a = 0 then 1#64 else if a = 0x1000 then 2#64
  else if 0x2000 ≤ a ∧ a < 0x2000 + 8 * n then 3#64 else 0#64

/-- This memory and a buffer of zeros. -/
def smallTree (n : Nat) : Machine where
  readmem a := some (smallWord n a.toNat)
  p2mMfn := 0#64
  frameListJunk _ := 0#64
  mfnsJunk := ⟨List.replicate mfnsPerFrame 0#64, List.length_replicate⟩

/-- A page with `k` equal entries. -/
theorem pageHolds_replicate {k : Nat} {w : Word} (hk : k ≤ mfnsPerFrame) (hw : w ≠ 0#64)
    (h : ∀ j, j < mfnsPerFrame → m.readmem (pfnToPaddr frame + BitVec.ofNat 64 (8 * j)) =
      some (if j < k then w else 0#64)) : m.PageHolds frame (List.replicate k w) := by
  refine ⟨List.replicate (mfnsPerFrame - k) 0#64, (readWords_eq_some (by decide)).2 ⟨?_, fun j hj => ?_⟩,
    fun x hx => ?_, fun x hx => ?_⟩
  · rw [List.length_append, List.length_replicate, List.length_replicate]
    omega
  · rw [h j hj, List.getElem?_append, List.length_replicate, List.getElem?_replicate,
      List.getElem?_replicate]
    by_cases hjk : j < k
    · rw [if_pos hjk, if_pos hjk, if_pos hjk]
    · rw [if_neg hjk, if_neg hjk, if_pos (by omega)]
  · rw [List.eq_of_mem_replicate hx]
    exact hw
  · exact List.eq_of_mem_replicate (List.mem_of_head? hx)

theorem smallTree_tree {n : Nat} (hn : n ≤ 512) :
    (smallTree n).Tree [1#64] [2#64] (List.replicate n 3#64) := by
  have hread : ∀ (p : Word) (a j : Nat), pfnToPaddr p = BitVec.ofNat 64 a → a ≤ 0x2000 → j < 512 →
      (smallTree n).readmem (pfnToPaddr p + BitVec.ofNat 64 (8 * j)) =
        some (smallWord n (a + 8 * j)) := by
    intro p a j hp ha hj
    have haddr : (pfnToPaddr p + BitVec.ofNat 64 (8 * j)).toNat = a + 8 * j := by
      rw [hp, BitVec.toNat_add, BitVec.toNat_ofNat, BitVec.toNat_ofNat]
      omega
    rw [← haddr]
    rfl
  have hroot : (smallTree n).PageHolds 0#64 [1#64] := by
    refine pageHolds_replicate (k := 1) (by decide) (by decide) fun j hj => ?_
    have hj' : j < 512 := hj
    rw [hread 0#64 0 j (by decide) (by decide) hj', smallWord]
    congr 1
    repeat' split
    all_goals first | rfl | omega
  have hlist : (smallTree n).PageHolds 1#64 [2#64] := by
    refine pageHolds_replicate (k := 1) (by decide) (by decide) fun j hj => ?_
    have hj' : j < 512 := hj
    rw [hread 1#64 0x1000 j (by decide) (by decide) hj', smallWord]
    congr 1
    repeat' split
    all_goals first | rfl | omega
  have hframe : (smallTree n).PageHolds 2#64 (List.replicate n 3#64) := by
    refine pageHolds_replicate hn (by decide) fun j hj => ?_
    have hj' : j < 512 := hj
    rw [hread 2#64 0x2000 j (by decide) (by decide) hj', smallWord]
    congr 1
    repeat' split
    all_goals first | rfl | omega
  refine ⟨hroot, ⟨hlist, fun h => absurd rfl h, rfl⟩, ⟨?_, fun h => absurd rfl h, ?_⟩⟩
  · rw [List.take_of_length_le (by rw [List.length_replicate]; exact hn)]
    exact hframe
  · exact List.drop_eq_nil_of_le (by rw [List.length_replicate]; exact hn)

/-- One entry. -/
theorem translates_one : (smallTree 1).Translates [3#64] :=
  (translates_iff (smallTree_tree (n := 1) (by decide))).2 ⟨.inr (by decide), .inr (.inl (by decide))⟩

/-- Sixty-five entries: the last of them is behind the words that are read. -/
theorem not_translates_65 : (smallTree 65).Tree [1#64] [2#64] (List.replicate 65 3#64) ∧
    ¬ (smallTree 65).Translates (List.replicate 65 3#64) := by
  have htree := smallTree_tree (n := 65) (by decide)
  refine ⟨htree, ?_⟩
  rintro ⟨result, hresult, hlen, -⟩
  obtain ⟨info, hinfo, hframes, hzero, hget⟩ := getMachdepInfo_some htree (.inr (by decide))
  obtain ⟨info', hinfo', -, -, hcount⟩ := getDom0Mapnr_eq htree.frames hframes hzero hget
  rw [hinfo, Option.bind_some, hinfo'] at hresult
  cases hresult
  have hok := hcount.1 hlen
  exact absurd hok (by
    rw [List.length_replicate]
    rintro (h | h | h)
    · cases h
    · exact absurd h (by decide)
    · revert h
      decide)

end Xen
