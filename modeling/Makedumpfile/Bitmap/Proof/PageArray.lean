import Makedumpfile.Bitmap.PageArray

/-!
# The page cache holds the page of the frame

In every round `mem_map` is the address of the `struct page` of `pfn`, however far the loop jumped, and
what was read stays in one block of `PGMM_CACHED` (`Inv`, kept by `inv_round`). So the page that is
looked at is that of `pfn`, and so is the page behind it, unless `pfn` is the last of its block: the
code does not look behind the last entry (`pageScan_ok`).
-/

namespace Bitmap

open Lib ByteFile

namespace PageScan

variable {a : PageScan} {v v' : PageVars} {s : Scan} {pfn : UInt64}

/-! ## Bytes -/

theorem length_bytesAt (addr : UInt64) (n : Nat) : (a.bytesAt addr n).length = n := by
  rw [bytesAt, List.length_map, List.length_range]

theorem pread_bytesAt (addr : UInt64) {o n m : Nat} (h : o + m ≤ n) :
    pread (a.bytesAt addr n) o m = a.bytesAt (addr + UInt64.ofNat o) m := by
  unfold pread bytesAt
  rw [List.range_eq_range', ← List.map_drop, ← List.map_take, List.drop_range',
    List.take_range'_of_length_ge (by omega), List.range'_eq_map_range, List.map_map]
  refine List.map_congr_left fun i _ => ?_
  simp only [Function.comp, Nat.zero_add, Nat.mul_one, UInt64.ofNat_add, add_assoc]

theorem indexPg_eq (pfn : UInt64) : indexPg pfn = pfn.toNat % 512 := by
  unfold indexPg
  rw [UInt64.toNat_mod]
  rfl

theorem indexPg_lt (pfn : UInt64) : indexPg pfn < 512 := by
  rw [indexPg_eq]
  omega

/-- The pages to read are in the block of `pfn`, up to its end or to that of the range. -/
theorem pfnMm_spec (h : pfn < a.pfnEnd) :
    0 < a.pfnMm pfn ∧ indexPg pfn + a.pfnMm pfn ≤ 512 ∧
      (indexPg pfn + a.pfnMm pfn = 512 ∨ pfn.toNat + a.pfnMm pfn = a.pfnEnd.toNat) := by
  have hidx := indexPg_eq pfn
  have hpfn := pfn.toNat_lt
  rw [UInt64.lt_iff_toNat_lt] at h
  -- near the end of the numbers the sum goes around, and the rest of the block is read
  have hround : (roundup64 (pfn + 1) 512).toNat = (pfn.toNat + 512) % 2 ^ 64 / 512 * 512 := by
    have hsum : pfn + 1 + (512 - 1) = pfn + 512 := by grind
    rw [roundup64, hsum, UInt64.toNat_mul, UInt64.toNat_div, UInt64.toNat_add]
    show (pfn.toNat + 512) % 2 ^ 64 / 512 * 512 % 2 ^ 64 = _
    omega
  unfold pfnMm pgmmCached
  split
  · omega
  · rename_i hge
    rw [UInt64.lt_iff_toNat_lt, hround] at hge
    have hsub := UInt64.toNat_sub_of_le a.pfnEnd pfn (UInt64.le_iff_toNat_le.mpr h.le)
    omega

/-! ## The invariant -/

structure Inv (a : PageScan) (v : PageVars) : Prop where
  memMap : v.memMap = a.memMap + (v.pfn - a.pfnStart) * a.sizeOf
  length : v.pageCache.length = 512 * a.size
  block : v.pfnReadStart ≤ v.pfnReadEnd →
    v.pfnReadStart.toNat / 512 = v.pfnReadEnd.toNat / 512 ∧
      (v.pfnReadEnd.toNat % 512 = 511 ∨ v.pfnReadEnd.toNat + 1 = a.pfnEnd.toNat)
  entry : ∀ q, v.pfnReadStart ≤ q → q ≤ v.pfnReadEnd →
    a.load v.pageCache (indexPg q) = .ok (a.structPage q)

theorem inv_start (a : PageScan) (s : Scan) : Inv a (a.start s) := by
  have hempty (q : UInt64) (h1 : UInt64.ofNat (2 ^ 64 - 1) ≤ q) (h2 : q ≤ 0) : False := by
    have h := UInt64.le_iff_toNat_le.mp (UInt64.le_trans h1 h2)
    exact absurd h (by decide)
  have hlen : ((List.range (a.size * pgmmCached)).map a.junk).length = 512 * a.size := by
    rw [List.length_map, List.length_range, pgmmCached, Nat.mul_comm]
  unfold start
  dsimp only
  split
  · exact ⟨rfl, hlen, fun h => (hempty 0 h (UInt64.le_refl _)).elim,
      fun q h1 h2 => (hempty q h1 h2).elim⟩
  · refine ⟨?_, hlen, fun h => (hempty 0 h (UInt64.le_refl _)).elim,
      fun q h1 h2 => (hempty q h1 h2).elim⟩
    grind

theorem inv_advance (h : Inv a v) : Inv a (a.advance v) := by
  refine ⟨?_, h.length, h.block, h.entry⟩
  have hm := h.memMap
  simp only [advance]
  grind

theorem inv_exclude (h : Inv a v) (order : Nat) : Inv a (a.exclude order v) := by
  have hm := h.memMap
  unfold exclude
  dsimp only
  split
  · exact ⟨hm, h.length, h.block, h.entry⟩
  · refine ⟨?_, h.length, h.block, h.entry⟩
    dsimp only
    grind

/-- The pages that were read, in the buffer. -/
theorem load_stored {cache : List UInt8} {addr : UInt64} {index n j : Nat}
    (hlen : cache.length = 512 * a.size) (hfit : index + n ≤ 512) (h1 : index ≤ j)
    (h2 : j < index + n) :
    a.load (pwrite cache (index * a.size) (a.bytesAt addr (a.size * n))) j =
      .ok (a.bytesAt (addr + UInt64.ofNat (j - index) * a.sizeOf) a.size) := by
  have hin : j * a.size + a.size ≤ 512 * a.size := by
    rw [← Nat.succ_mul]
    exact Nat.mul_le_mul_right _ (by omega)
  have hoff : j * a.size = index * a.size + (j - index) * a.size := by
    rw [← Nat.add_mul]
    congr 1
    omega
  have hpart : (j - index) * a.size + a.size ≤ a.size * n := by
    rw [← Nat.succ_mul, Nat.mul_comm a.size]
    exact Nat.mul_le_mul_right _ (by omega)
  have hself := pread_pwrite_self cache (index * a.size) (a.bytesAt addr (a.size * n))
  rw [length_bytesAt] at hself
  have hle := le_length_pwrite cache (index * a.size) (a.bytesAt addr (a.size * n))
  rw [load, if_pos (by omega), hoff, ← pread_pread _ hpart, hself, pread_bytesAt _ hpart,
    UInt64.ofNat_mul]
  rfl

theorem length_stored {cache b : List UInt8} {off : Nat} (h : off + b.length ≤ cache.length) :
    (pwrite cache off b).length = cache.length := by
  rw [length_pwrite]
  split <;> omega

/-- The variables after pages were read. -/
theorem fetch_read (hin : v.pfn < v.pfnReadStart ∨ v.pfnReadEnd < v.pfn)
    (hr : a.readOk v.memMap (a.size * a.pfnMm v.pfn) = true)
    (hfit : indexPg v.pfn * a.size + a.size * a.pfnMm v.pfn ≤ v.pageCache.length) :
    a.fetch v = .ok { v with
      pageCache := pwrite v.pageCache (indexPg v.pfn * a.size)
        (a.bytesAt v.memMap (a.size * a.pfnMm v.pfn))
      pfnReadStart := v.pfn
      pfnReadEnd := v.pfn + UInt64.ofNat (a.pfnMm v.pfn) - 1 } := by
  have hread : a.readmem v.memMap (a.size * a.pfnMm v.pfn) =
      .ok (a.bytesAt v.memMap (a.size * a.pfnMm v.pfn)) := if_pos hr
  have hstore : store v.pageCache (indexPg v.pfn * a.size)
      (a.bytesAt v.memMap (a.size * a.pfnMm v.pfn)) = .ok _ :=
    if_pos (by rwa [length_bytesAt])
  simp only [fetch, if_pos hin, hread, bind, Except.bind, hstore, pure, Except.pure]

/-- **Reading** puts the pages at their places, inside the buffer. -/
theorem fetch_spec (h : Inv a v) (hpfn : v.pfn < a.pfnEnd) :
    a.fetch v = .error .failed ∨
      ∃ v', a.fetch v = .ok v' ∧ Inv a v' ∧ v'.pfn = v.pfn ∧ v'.pfnReadStart ≤ v.pfn ∧
        v.pfn ≤ v'.pfnReadEnd := by
  by_cases hin : v.pfn < v.pfnReadStart ∨ v.pfnReadEnd < v.pfn
  case neg =>
    exact .inr ⟨v, if_neg hin, h, rfl, UInt64.not_lt.mp fun hlt => hin (.inl hlt),
      UInt64.not_lt.mp fun hlt => hin (.inr hlt)⟩
  obtain ⟨hpos, hfit, hend⟩ := pfnMm_spec hpfn
  by_cases hr : a.readOk v.memMap (a.size * a.pfnMm v.pfn) = true
  case neg =>
    refine .inl ?_
    simp only [fetch, if_pos hin, readmem, if_neg hr, bind, Except.bind]
  have hbytes : indexPg v.pfn * a.size + a.size * a.pfnMm v.pfn ≤ v.pageCache.length := by
    rw [h.length, Nat.mul_comm a.size, ← Nat.add_mul]
    exact Nat.mul_le_mul_right _ hfit
  have hidx := indexPg_eq v.pfn
  have hlt := v.pfn.toNat_lt
  have hlast : (v.pfn + UInt64.ofNat (a.pfnMm v.pfn) - 1).toNat =
      v.pfn.toNat + a.pfnMm v.pfn - 1 := by
    have hsum : v.pfn + UInt64.ofNat (a.pfnMm v.pfn) - 1 =
        v.pfn + UInt64.ofNat (a.pfnMm v.pfn - 1) := by
      rw [UInt64.ofNat_sub hpos]
      grind
    rw [hsum, UInt64.toNat_add, UInt64.toNat_ofNat']
    omega
  refine .inr ⟨_, fetch_read hin hr hbytes, ⟨h.memMap, ?_, fun _ => ?_, fun q h1 h2 => ?_⟩, rfl,
    UInt64.le_refl _, ?_⟩
  · exact (length_stored ((length_bytesAt ..).symm ▸ hbytes)).trans h.length
  · dsimp only
    omega
  · -- the distance from the first page that was read
    have h1' := UInt64.le_iff_toNat_le.mp h1
    have h2' := UInt64.le_iff_toNat_le.mp h2
    have hq : q = v.pfn + UInt64.ofNat (q.toNat - v.pfn.toNat) := by
      rw [UInt64.ofNat_sub h1', UInt64.ofNat_toNat, UInt64.ofNat_toNat]
      grind
    have hqidx := indexPg_eq q
    dsimp only at h1' h2' ⊢
    rw [load_stored h.length hfit (by omega) (by omega), structPage, h.memMap]
    have hd : indexPg q - indexPg v.pfn = q.toNat - v.pfn.toNat := by omega
    rw [hd]
    congr 2
    grind
  · refine UInt64.le_iff_toNat_le.mpr ?_
    dsimp only
    omega

theorem load_ok {cache : List UInt8} {index : Nat} (hlen : cache.length = 512 * a.size)
    (h : index < 512) : a.load cache index = .ok (pread cache (index * a.size) a.size) := by
  refine if_pos ?_
  rw [hlen, ← Nat.succ_mul]
  exact Nat.mul_le_mul_right _ h

/-- Behind the tests the loop is at the next page or behind a block. -/
theorem inv_tests (h : Inv a v) (page next : List UInt8) :
    ∃ v', (match excludeOrder a.image.kernel a.level v.pfn.toNat page next with
      | none => (.ok (a.advance v) : Except Halt PageVars)
      | some order => .ok (a.advance (a.exclude order v))) = .ok v' ∧ Inv a v' := by
  split
  · exact ⟨_, rfl, inv_advance h⟩
  · exact ⟨_, rfl, inv_advance (inv_exclude h _)⟩

/-- The tests stay in the buffer. -/
theorem examine_spec (h : Inv a v) : ∃ v', a.examine v = .ok v' ∧ Inv a v' := by
  have hpage := load_ok h.length (indexPg_lt v.pfn)
  simp only [examine, hpage, bind, Except.bind]
  split
  · rename_i hhead
    have hidx := of_decide_eq_true (Bool.and_eq_true_iff.mp hhead).1
    unfold pgmmCached at hidx
    rw [load_ok h.length (by omega)]
    exact inv_tests h _ _
  · exact inv_tests h _ _

/-- **One round** keeps the invariant, and ends only when something cannot be read. -/
theorem round_spec (h : Inv a v) (hpfn : v.pfn < a.pfnEnd) :
    a.round v = .error .failed ∨ ∃ v', a.round v = .ok v' ∧ Inv a v' := by
  unfold round
  cases a.skips v.pfn with
  | none => exact .inl rfl
  | some skip =>
    cases skip with
    | true => exact .inr ⟨_, rfl, inv_advance h⟩
    | false =>
      cases fetch_spec h hpfn with
      | inl hf => exact .inl (by simp only [hf, bind, Except.bind])
      | inr hf =>
        obtain ⟨v', hf, hinv, -⟩ := hf
        obtain ⟨v'', hex, hinv'⟩ := examine_spec hinv
        exact .inr ⟨v'', by simp only [hf, bind, Except.bind, hex], hinv'⟩

theorem inv_visits (h : a.Visits s v) : Inv a v := by
  induction h with
  | start => exact inv_start a s
  | round _ hlt hr ih =>
    cases round_spec ih hlt with
    | inl hf =>
      rw [hr] at hf
      cases hf
    | inr hok =>
      obtain ⟨v', hok, hinv⟩ := hok
      rw [hr] at hok
      cases hok
      exact hinv

/-! ## The pages that are looked at -/

/-- `pcache` is the `struct page` of the frame. -/
def PageHeld (a : PageScan) (v : PageVars) : Prop :=
  a.load v.pageCache (indexPg v.pfn) = .ok (a.structPage v.pfn)

/-- What is behind it is the `struct page` of the next frame. -/
def NextHeld (a : PageScan) (v : PageVars) : Prop :=
  a.load v.pageCache (indexPg v.pfn + 1) = .ok (a.structPage (v.pfn + 1))

/-- The next frame of the range, in the same block. -/
theorem next_held (h : Inv a v) (h1 : v.pfnReadStart ≤ v.pfn) (h2 : v.pfn ≤ v.pfnReadEnd)
    (hidx : indexPg v.pfn ≠ 511) (hnext : v.pfn + 1 < a.pfnEnd) : NextHeld a v := by
  have hlt := v.pfn.toNat_lt
  have hpfn := indexPg_eq v.pfn
  have hsucc : (v.pfn + 1).toNat = v.pfn.toNat + 1 := by
    rw [UInt64.toNat_add]
    show (v.pfn.toNat + 1) % 2 ^ 64 = _
    omega
  have hindex : indexPg v.pfn + 1 = indexPg (v.pfn + 1) := by
    rw [indexPg_eq (v.pfn + 1), hsucc]
    omega
  obtain ⟨hblock, hend⟩ := h.block (UInt64.le_trans h1 h2)
  rw [UInt64.le_iff_toNat_le] at h1 h2
  rw [UInt64.lt_iff_toNat_lt] at hnext
  rw [NextHeld, hindex]
  refine h.entry _ (UInt64.le_iff_toNat_le.mpr ?_) (UInt64.le_iff_toNat_le.mpr ?_) <;> omega

/-- **The page cache.** Whenever the loop looks at a frame, the `struct page` in hand is that of the
frame, and the one behind it that of the next frame when the page is looked at as a compound head, that
is, unless it is the last of the buffer. No access is outside of the buffer. -/
theorem pageScan_ok (hv : a.Visits s v) (hlt : v.pfn < a.pfnEnd) :
    a.round v ≠ .error .outside ∧
      (a.skips v.pfn = some false → ∀ v', a.fetch v = .ok v' →
        v'.pfn = v.pfn ∧ PageHeld a v' ∧
          (a.atHead v.pfn (a.structPage v.pfn) = true → v.pfn + 1 < a.pfnEnd → NextHeld a v')) := by
  have hinv := inv_visits hv
  constructor
  · intro hout
    cases round_spec hinv hlt with
    | inl hf =>
      rw [hf] at hout
      cases hout
    | inr hok =>
      obtain ⟨v', hok, -⟩ := hok
      rw [hok] at hout
      cases hout
  · intro _ v' hf
    cases fetch_spec hinv hlt with
    | inl hfail =>
      rw [hf] at hfail
      cases hfail
    | inr hok =>
      obtain ⟨v'', hf', hinv', hp, h1, h2⟩ := hok
      rw [hf] at hf'
      cases hf'
      rw [← hp] at h1 h2
      refine ⟨hp, hinv'.entry _ h1 h2, fun hhead hnext => ?_⟩
      have hidx := of_decide_eq_true (Bool.and_eq_true_iff.mp hhead).1
      unfold pgmmCached at hidx
      rw [← hp] at hidx hnext
      exact next_held hinv' h1 h2 (by omega) hnext

/-- There is nothing in the buffer behind the last entry of a block. -/
theorem not_nextHeld (h : Inv a v) (hsize : 0 < a.size) (hidx : indexPg v.pfn = 511) :
    ¬ NextHeld a v := by
  have hout : a.load v.pageCache 512 = .error .outside := by
    refine if_neg ?_
    rw [h.length]
    omega
  intro hnext
  rw [NextHeld, hidx, hout] at hnext
  cases hnext

/-- The only failure is that memory cannot be read. -/
theorem fetch_ne_failed (hr : ∀ addr n, a.readOk addr n = true) : a.fetch v ≠ .error .failed := by
  intro hf
  have hread : a.readmem v.memMap (a.size * a.pfnMm v.pfn) = .ok _ := if_pos (hr _ _)
  simp only [fetch, hread, bind, Except.bind, store] at hf
  by_cases hin : v.pfn < v.pfnReadStart ∨ v.pfnReadEnd < v.pfn
  · rw [if_pos hin] at hf
    split at hf
    · rename_i hst
      split at hst <;> cases hst
      cases hf
    · cases hf
  · rw [if_neg hin] at hf
    cases hf

/-- Two frames, the last of a block and the first of the next one, with the head flag in all pages. -/
def lastHead : PageScan where
  image :=
    { pageShift := 12, maxMapnr := 1024
      extents := [{ physStart := 0, physEnd := 4194304, fileOffset := 4096, fileSize := 4194304 }]
      kernel := { flags := 0, refcount := 0, mapping := 0, pgHeadMask := 1 }
      memMaps := [], structPage := fun _ => [] }
  level := 0
  size := 8
  memory := fun _ => 1
  junk := fun _ => 0
  memMap := 0
  pfnStart := 511
  pfnEnd := 513
  cycle := { startPfn := 0, endPfn := 1024 }

/-- The page cache with the first frame looked at. -/
theorem pageScan_ok_lastHead :
    lastHead.round (lastHead.start { buf := [] }) ≠ .error .outside ∧
      (lastHead.skips (lastHead.start { buf := [] }).pfn = some false →
        ∀ v', lastHead.fetch (lastHead.start { buf := [] }) = .ok v' →
          v'.pfn = (lastHead.start { buf := [] }).pfn ∧ PageHeld lastHead v' ∧
            (lastHead.atHead (lastHead.start { buf := [] }).pfn
                (lastHead.structPage (lastHead.start { buf := [] }).pfn) = true →
              (lastHead.start { buf := [] }).pfn + 1 < lastHead.pfnEnd → NextHeld lastHead v')) :=
  pageScan_ok .start (by decide)

/-- A compound head that is the last of its block: what is behind it is not the next page. -/
theorem not_nextHeld_lastHead :
    ¬ ∀ (a : PageScan) (s : Scan) (v v' : PageVars), a.Visits s v → v.pfn < a.pfnEnd →
      a.skips v.pfn = some false → a.fetch v = .ok v' →
      isCompoundHead a.image.kernel (readPage a.image.kernel (a.structPage v.pfn)).flags = true →
      v.pfn + 1 < a.pfnEnd → NextHeld a v' := by
  intro hall
  have hinv := inv_start lastHead { buf := [] }
  have hlt : (lastHead.start { buf := [] }).pfn < lastHead.pfnEnd := by decide
  cases fetch_spec hinv hlt with
  | inl hfail => exact fetch_ne_failed (fun _ _ => rfl) hfail
  | inr hok =>
    obtain ⟨v', hf, hinv', hp, -⟩ := hok
    refine not_nextHeld hinv' (by decide) ?_ (hall lastHead _ _ v' .start hlt ?_ hf ?_ ?_)
    · rw [hp]
      rfl
    · decide
    · decide
    · decide

end PageScan

end Bitmap
