import Mathlib.Data.List.Pairwise
import Makedumpfile.Readmem.Readmem

/-!
# Cached and uncached reads

Every cache entry gives the bytes `readpage_elf` would read, as long as the entries for mmap windows
are made from windows that lie in the part of the segment that has data, and no window is used after
its entry was thrown out (`pageOk`). Then every state that a run reaches satisfies `Inv`, and every
request returns what the uncached reads return (`readmem_agrees`). Neither is checked by the code:
the end of the window comes from the size in memory, and `mappage_elf` does not know of the unmap.
-/

namespace Readmem

open Lib ByteFile

/-- Disjoint in physical memory. -/
def PtLoad.Apart (p q : PtLoad) : Prop := p.physEnd ≤ q.physStart ∨ q.physEnd ≤ p.physStart

instance : Std.Symm PtLoad.Apart := ⟨fun _ _ h => Or.symm h⟩

/-- The segments are disjoint, and none has more data than memory. -/
structure WellFormed (v : Vmcore) : Prop where
  disjoint : v.loads.Pairwise PtLoad.Apart
  filesz : ∀ p ∈ v.loads, p.physStart + p.fileSize ≤ p.physEnd
  range : ∀ p ∈ v.loads, p.physEnd < 2 ^ 64

variable {v : Vmcore}

/-! ## A page with data -/

theorem WellFormed.unique (h : WellFormed v) {p q : PtLoad} (hp : p ∈ v.loads) (hq : q ∈ v.loads)
    {a : Nat} (h1 : p.physStart ≤ a ∧ a < p.physEnd) (h2 : q.physStart ≤ a ∧ a < q.physEnd) :
    p = q := by
  apply Classical.byContradiction
  intro hne
  rcases h.disjoint.forall hp hq hne with h | h <;> omega

/-- The segment that holds the address is found. -/
theorem closestLoop_exact {paddr : Nat} {p : PtLoad} (hp : p.physStart ≤ paddr ∧ paddr < p.physEnd) :
    ∀ {l : List PtLoad} (d : Nat) (best : Option PtLoad), p ∈ l →
      (∀ q ∈ l, q.physStart ≤ paddr ∧ paddr < q.physEnd → q = p) →
      closestLoop paddr d best l = some p
  | q :: l, d, best, hm, hu => by
    unfold closestLoop
    have hrest : q ≠ p → ∀ d best, closestLoop paddr d best l = some p := fun hne d best =>
      closestLoop_exact hp d best ((List.mem_cons.1 hm).resolve_left fun h => hne h.symm)
        fun r hr => hu r (List.mem_cons_of_mem _ hr)
    by_cases h1 : q.physEnd ≤ paddr
    · rw [if_pos h1]
      exact hrest (by rintro rfl; omega) d best
    · rw [if_neg h1]
      by_cases h2 : q.physStart ≤ paddr
      · rw [if_pos h2, hu q List.mem_cons_self ⟨h2, by omega⟩]
      · have hne : q ≠ p := by
          rintro rfl
          exact h2 hp.1
        rw [if_neg h2]
        split
        · exact hrest hne _ _
        · exact hrest hne _ _

theorem readFromVmcore_ok {off n : Nat} (h : off + n ≤ v.file.length) :
    readFromVmcore v off n = some (v.file.pread off n) := by
  unfold readFromVmcore
  rw [if_pos (by rw [length_pread]; omega)]

/-- The page `pg` lies in the data of `p`, and the file has it. -/
def InData (v : Vmcore) (p : PtLoad) (pg : Nat) : Prop :=
  p ∈ v.loads ∧ p.physStart ≤ pg ∧ pg + v.pageSize ≤ p.physStart + p.fileSize ∧
    p.fileOffset + (pg - p.physStart) + v.pageSize ≤ v.file.length

/-- **A page with data** is read from its place in the file. -/
theorem readpageElf_inData (hv : WellFormed v) {p : PtLoad} {pg : Nat} (h : InData v p pg) :
    readpageElf v pg =
      some (v.file.pread (p.fileOffset + (pg - p.physStart)) v.pageSize) := by
  obtain ⟨hp, h1, h2, h3⟩ := h
  have hpos := v.pageSize_pos
  have hsz := hv.filesz p hp
  have hclosest : closestPtLoad v pg v.pageSize = some p :=
    closestLoop_exact ⟨h1, by omega⟩ _ _ hp fun q hq hin => hv.unique hq hp hin ⟨h1, by omega⟩
  have hloop : readpageLoop v pg v.pageSize =
      some (v.file.pread (p.fileOffset + (pg - p.physStart)) v.pageSize) := by
    rw [readpageLoop, dif_neg (by omega)]
    split
    · rename_i hc
      rw [hclosest] at hc
      cases hc
    · rename_i q hc
      rw [hclosest] at hc
      cases hc
      have hgap : p.physStart - pg = 0 := by omega
      have hin : min (p.fileSize - (pg - p.physStart)) v.pageSize = v.pageSize := by omega
      simp only [hgap, Nat.add_zero, Nat.sub_zero, hin, Nat.sub_self, Nat.min_zero,
        if_neg (Nat.pos_iff_ne_zero.1 hpos), readFromVmcore_ok h3]
      rw [readpageLoop, dif_pos rfl]
      simp
  have hlen : (v.file.pread (p.fileOffset + (pg - p.physStart)) v.pageSize).length = v.pageSize := by
    rw [length_pread]
    omega
  rw [readpageElf, hloop, Option.bind_some, if_neg, hlen, Nat.sub_self, List.replicate_zero,
    List.append_nil]
  intro hnil
  rw [hnil] at hlen
  exact absurd hlen (by simpa using Nat.ne_of_lt hpos)

theorem length_readpageElf {pg : Nat} {b : List UInt8} (h : readpageElf v pg = some b) :
    v.pageSize ≤ b.length := by
  obtain ⟨c, -, h2⟩ := Option.bind_eq_some_iff.1 h
  split at h2
  · cases h2
  · cases h2
    simp
    omega

/-! ## The uncached read -/

/-- What `readpage_elf` gives for `n` bytes at `paddr` of one page. -/
def pageOutcome (v : Vmcore) (paddr n : Nat) : Outcome :=
  match readpageElf v (paddr / v.pageSize * v.pageSize) with
  | none => .failed
  | some buf => .ok (pread buf (paddr % v.pageSize) n)

/-- The request page by page, without cache and mmap. -/
def uncachedRead (v : Vmcore) (addr size : Nat) : Outcome :=
  let n := readSize v addr size
  match pageOutcome v addr n with
  | .ok b =>
    if _h : size - n = 0 then .ok b
    else
      match uncachedRead v ((addr + n) % 2 ^ 64) (size - n) with
      | .ok b' => .ok (b ++ b')
      | r => r
  | r => r
termination_by size
decreasing_by
  have := @readSize_pos v addr size (by omega)
  omega

/-! ## The invariant -/

/-- An entry for a window `[start, start + buflen)` of the file that lies in the data of `p`. -/
structure MapOk (v : Vmcore) (e : Entry) (start : Nat) (p : PtLoad) : Prop where
  mem : p ∈ v.loads
  lo : p.fileOffset ≤ start
  hi : start + e.buflen ≤ p.fileOffset + p.fileSize
  file : start + e.buflen ≤ v.file.length
  paddr : e.paddr = p.physStart + (start - p.fileOffset)
  aligned : v.pageSize ∣ e.paddr
  buflen : v.pageSize ∣ e.buflen

def EntryOk (v : Vmcore) (maps : List Nat) (e : Entry) : Prop :=
  match e.src with
  | .page buf => e.buflen = v.pageSize ∧ v.pageSize ∣ e.paddr ∧ e.paddr < 2 ^ 64 ∧
      readpageElf v e.paddr = some buf
  | .map id => ∃ start p, maps[id]? = some start ∧ MapOk v e start p

structure Inv (v : Vmcore) (s : State) : Prop where
  entries : ∀ e ∈ s.used, EntryOk v s.maps e
  slots : s.used.length + s.pool.length = 8
  window : s.flagUsemmap = true → s.maps[s.mmapBuf]? = some s.mmapStartOffset ∧
    v.pageSize ∣ s.mmapStartOffset ∧ v.pageSize ∣ s.mmapEndOffset

/-- The window lies in the data of the segment that holds the page. -/
def windowInData (v : Vmcore) (pgaddr : Nat) (s : State) : Bool :=
  v.loads.any fun p => p.physStart ≤ pgaddr ∧ pgaddr < p.physEnd ∧
    p.fileOffset ≤ s.mmapStartOffset ∧ s.mmapEndOffset ≤ p.fileOffset + p.fileSize ∧
    s.mmapEndOffset ≤ v.file.length

/-- The step reads from no window that was unmapped, and when it maps the page, the window it uses
lies in data. -/
def pageOk (v : Vmcore) (paddr n : Nat) (s : State) : Bool :=
  let pgaddr := paddr / v.pageSize * v.pageSize
  match cacheSearch pgaddr n s with
  | some (e, _) => s.released.all fun id => e.src ≠ .map id
  | none =>
    match cacheAlloc s with
    | none => true
    | some (_, s) =>
      match mappageElf v pgaddr s with
      | (none, _) => true
      | (some _, s) => s.mmapBuf ∉ s.released ∧ windowInData v pgaddr s = true

/-! ## Hits -/

/-- An entry of whole pages that has a byte of an aligned page has the page. -/
theorem holds_page {e : Entry} {pg n : Nat} (hpg : v.pageSize ∣ pg) (hlt : pg < 2 ^ 64)
    (he : v.pageSize ∣ e.paddr) (hb : v.pageSize ∣ e.buflen) (hr : e.paddr + e.buflen ≤ 2 ^ 64)
    (h : e.holds pg n = true) :
    u64sub pg e.paddr = pg - e.paddr ∧ e.paddr ≤ pg ∧
      pg + v.pageSize ≤ e.paddr + e.buflen := by
  unfold Entry.holds at h
  rw [decide_eq_true_iff] at h
  have hle : e.paddr ≤ pg := by
    apply Classical.byContradiction
    intro hc
    have hu : u64sub pg e.paddr = pg + 2 ^ 64 - e.paddr := by
      unfold u64sub
      exact Nat.mod_eq_of_lt (by omega)
    omega
  have hu := u64sub_of_le hlt hle
  refine ⟨hu, hle, ?_⟩
  obtain ⟨a, ha⟩ := hpg
  obtain ⟨b, hb'⟩ := he
  obtain ⟨k, hk⟩ := hb
  rw [hu, ha, hb', hk] at h
  rw [ha, hb', hk]
  have h1 : v.pageSize * a < v.pageSize * (b + k) := by
    rw [Nat.mul_add]
    omega
  have h2 : v.pageSize * (a + 1) ≤ v.pageSize * (b + k) :=
    Nat.mul_le_mul_left _ (Nat.lt_of_mul_lt_mul_left h1)
  rw [Nat.mul_add, Nat.mul_add, Nat.mul_one] at h2
  exact h2

theorem MapOk.inData {e : Entry} {start : Nat} {p : PtLoad} (h : MapOk v e start p) {pg : Nat}
    (h1 : e.paddr ≤ pg) (h2 : pg + v.pageSize ≤ e.paddr + e.buflen) :
    InData v p pg ∧ start + (pg - e.paddr) = p.fileOffset + (pg - p.physStart) := by
  have hlo := h.lo
  have hhi := h.hi
  have hf := h.file
  have hp := h.paddr
  exact ⟨⟨h.mem, by omega, by omega, by omega⟩, by omega⟩

/-- **Served by an entry**: the bytes are those of the page. -/
theorem copyFrom_ok (hv : WellFormed v) {s : State} {e : Entry} {pg i n : Nat}
    (he : EntryOk v s.maps e) (hlive : ∀ id, e.src = .map id → id ∉ s.released)
    (h1 : e.paddr ≤ pg) (h2 : pg + v.pageSize ≤ e.paddr + e.buflen) (hn : i + n ≤ v.pageSize) :
    ∃ buf, readpageElf v pg = some buf ∧
      copyFrom v s e (pg - e.paddr + i) n = .ok (pread buf i n) := by
  unfold EntryOk at he
  unfold copyFrom
  cases hsrc : e.src with
  | page buf =>
    rw [hsrc] at he
    obtain ⟨hb, -, -, hread⟩ := he
    obtain rfl : e.paddr = pg := by omega
    refine ⟨buf, hread, ?_⟩
    rw [Nat.sub_self, Nat.zero_add]
  | map id =>
    rw [hsrc] at he
    obtain ⟨start, p, hm, hmap⟩ := he
    obtain ⟨hin, hoff⟩ := hmap.inData h1 h2
    refine ⟨_, readpageElf_inData hv hin, ?_⟩
    dsimp only
    rw [if_neg (hlive id hsrc), List.getD_eq_getElem?_getD, hm, Option.getD_some, ← Nat.add_assoc,
      hoff, pread_pread _ hn, if_pos]
    rw [length_pread]
    have := hin.2.2.2
    omega

theorem EntryOk.range (hv : WellFormed v) {maps : List Nat} {e : Entry} (h : EntryOk v maps e) :
    v.pageSize ∣ e.paddr ∧ v.pageSize ∣ e.buflen ∧ e.paddr + e.buflen ≤ 2 ^ 64 := by
  unfold EntryOk at h
  split at h
  · obtain ⟨hb, ha, hlt, -⟩ := h
    refine ⟨ha, hb ▸ Nat.dvd_refl _, ?_⟩
    rw [hb]
    -- the end of an aligned page below 2^64
    obtain ⟨a, ha⟩ := ha
    obtain ⟨k, hk⟩ := Nat.dvd_trans v.pageSize_dvd (show 2 ^ 22 ∣ 2 ^ 64 by decide)
    rw [ha, hk] at hlt
    have := Nat.mul_le_mul_left v.pageSize (Nat.lt_of_mul_lt_mul_left hlt)
    rw [Nat.mul_succ] at this
    omega
  · obtain ⟨start, p, -, hm⟩ := h
    have h1 := hm.paddr
    have h2 := hm.hi
    have h3 := hv.filesz p hm.mem
    have h4 := hv.range p hm.mem
    have h5 := hm.lo
    exact ⟨hm.aligned, hm.buflen, by omega⟩

/-! ## Misses -/

theorem cacheSearch_cases {pg n : Nat} {s s' : State} {e : Entry}
    (h : cacheSearch pg n s = some (e, s')) :
    e ∈ s.used ∧ e.holds pg n = true ∧ s' = { s with used := e :: s.used.erase e } := by
  obtain ⟨e', h1, h2⟩ := Option.map_eq_some_iff.1 h
  cases h2
  have hold := List.find?_some h1
  exact ⟨List.mem_of_find?_eq_some h1, hold, rfl⟩

theorem Inv.search {pg n : Nat} {s s' : State} {e : Entry} (hI : Inv v s)
    (h : cacheSearch pg n s = some (e, s')) : Inv v s' := by
  obtain ⟨he, -, rfl⟩ := cacheSearch_cases h
  refine ⟨fun x hx => ?_, ?_, hI.window⟩
  · rcases List.mem_cons.1 hx with rfl | hx
    · exact hI.entries x he
    · exact hI.entries x (List.mem_of_mem_erase hx)
  · have h1 := hI.slots
    have h2 := List.length_erase_of_mem he
    have h3 := List.length_pos_of_mem he
    show (s.used.erase e).length + 1 + s.pool.length = 8
    omega

/-- A slot can always be had; the entries that stay are old ones, and one is missing. -/
theorem cacheAlloc_spec {s : State} (hI : Inv v s) : ∃ slot s1, cacheAlloc s = some (slot, s1) ∧
    (∀ e ∈ s1.used, e ∈ s.used) ∧ s1.used.length + s1.pool.length = 7 ∧ s1.maps = s.maps ∧
    s1.flagUsemmap = s.flagUsemmap ∧ s1.mmapBuf = s.mmapBuf ∧
    s1.mmapStartOffset = s.mmapStartOffset ∧ s1.mmapEndOffset = s.mmapEndOffset := by
  have hslots := hI.slots
  unfold cacheAlloc
  cases hp : s.pool with
  | cons slot pool =>
    rw [hp] at hslots
    simp only [List.length_cons] at hslots
    exact ⟨slot, _, rfl, fun _ h => h, by show s.used.length + pool.length = 7; omega, rfl, rfl,
      rfl, rfl, rfl⟩
  | nil =>
    rw [hp, List.length_nil] at hslots
    cases hu : s.used.getLast? with
    | none =>
      rw [List.getLast?_eq_none_iff.1 hu] at hslots
      cases hslots
    | some e =>
      have hlen : s.used.dropLast.length + ([] : List Nat).length = 7 := by
        simp only [List.length_dropLast, List.length_nil]
        omega
      have hsub : ∀ x ∈ s.used.dropLast, x ∈ s.used := fun x hx =>
        (List.dropLast_sublist s.used).subset hx
      refine ⟨_, _, rfl, ?_⟩
      unfold discard
      cases e.src with
      | page buf => exact ⟨hsub, hlen, rfl, rfl, rfl, rfl, rfl⟩
      | map id => exact ⟨hsub, hlen, rfl, rfl, rfl, rfl, rfl⟩

theorem foldl_max_le {f : PtLoad → Nat} : ∀ (l : List PtLoad) (m : Nat),
    m ≤ l.foldl (fun m p => max m (f p)) m ∧ ∀ p ∈ l, f p ≤ l.foldl (fun m p => max m (f p)) m
  | [], m => ⟨Nat.le_refl _, by simp⟩
  | q :: l, m => by
    obtain ⟨h1, h2⟩ := foldl_max_le (f := f) l (max m (f q))
    rw [List.foldl_cons]
    refine ⟨by omega, fun p hp => ?_⟩
    rcases List.mem_cons.1 hp with rfl | hp
    · omega
    · exact h2 p hp

theorem offsetToPtLoadEnd_le (hv : WellFormed v) (off : Nat) :
    offsetToPtLoadEnd v off ≤ maxFileOffset v := by
  unfold offsetToPtLoadEnd
  split
  · rename_i p hp
    have hm := List.mem_of_find?_eq_some hp
    have h1 := (foldl_max_le (f := fun p => p.fileOffset + p.physEnd - p.physStart) v.loads 0).2 p hm
    have h2 := hv.filesz p hm
    unfold maxFileOffset
    omega
  · exact Nat.zero_le _

/-- A new window starts and ends at page boundaries. -/
theorem updateMmapRange_spec (hv : WellFormed v) {off : Nat} {s s' : State} {r : Bool}
    (h : updateMmapRange v off s = (r, s')) :
    s'.used = s.used ∧ s'.pool = s.pool ∧ s'.released = s.released ∧
      (∃ t, s'.maps = s.maps ++ t) ∧ s'.flagUsemmap = s.flagUsemmap ∧
      (r = true → s'.maps[s'.mmapBuf]? = some s'.mmapStartOffset ∧
        v.pageSize ∣ s'.mmapStartOffset ∧ v.pageSize ∣ s'.mmapEndOffset) := by
  unfold updateMmapRange at h
  dsimp only at h
  split at h
  · cases h
    exact ⟨rfl, rfl, rfl, ⟨[], by simp⟩, rfl, fun h => by cases h⟩
  · rename_i hc
    split at h
    · cases h
      refine ⟨rfl, rfl, rfl, ⟨_, rfl⟩, rfl, fun _ => ⟨by simp, Nat.dvd_mul_left _ _, ?_⟩⟩
      refine Nat.dvd_add (Nat.dvd_mul_left _ _) ?_
      rw [Nat.min_eq_right (a := maxFileOffset v)]
      · rcases Nat.le_total (offsetToPtLoadEnd v off / v.pageSize * v.pageSize -
          (off + (v.pageSize - 1)) / v.pageSize * v.pageSize) mapRegion with hl | hl
        · rw [Nat.min_eq_left hl]
          exact Nat.dvd_sub (Nat.dvd_mul_left _ _) (Nat.dvd_mul_left _ _)
        · rw [Nat.min_eq_right hl]
          exact v.pageSize_dvd
      · exact Nat.le_trans (Nat.div_mul_le_self _ _) (offsetToPtLoadEnd_le hv off)
    · cases h
      exact ⟨rfl, rfl, rfl, ⟨[], by simp⟩, rfl, fun h => by cases h⟩

/-- What a step may do to the mappings: new ones are added, and the window, if there is one, is a
mapping with ends at page boundaries. -/
structure Remap (v : Vmcore) (s s' : State) : Prop where
  used : s'.used = s.used
  pool : s'.pool = s.pool
  maps : ∃ t, s'.maps = s.maps ++ t
  window : s'.flagUsemmap = true → s'.maps[s'.mmapBuf]? = some s'.mmapStartOffset ∧
    v.pageSize ∣ s'.mmapStartOffset ∧ v.pageSize ∣ s'.mmapEndOffset

/-- **Mapping a page**: the page lies in the window, at its offset in the file. -/
theorem mappageElf_spec (hv : WellFormed v) {pg : Nat} {s s' : State} {r : Option Nat}
    (hw : s.flagUsemmap = true → s.maps[s.mmapBuf]? = some s.mmapStartOffset ∧
      v.pageSize ∣ s.mmapStartOffset ∧ v.pageSize ∣ s.mmapEndOffset)
    (h : mappageElf v pg s = (r, s')) :
    Remap v s s' ∧ ∀ off, r = some off → s'.flagUsemmap = true ∧
      paddrToOffset v pg ≠ 0 ∧ paddrToOffset v pg = s'.mmapStartOffset + off ∧
      s'.mmapStartOffset + off + v.pageSize ≤ s'.mmapEndOffset ∧ v.pageSize ∣ off := by
  have hself : ∀ {r' : Option Nat}, (none, s) = (r', s') → Remap v s s' ∧ ∀ off, r' = some off →
      s'.flagUsemmap = true ∧ paddrToOffset v pg ≠ 0 ∧
      paddrToOffset v pg = s'.mmapStartOffset + off ∧
      s'.mmapStartOffset + off + v.pageSize ≤ s'.mmapEndOffset ∧ v.pageSize ∣ off := by
    intro r' h
    cases h
    refine ⟨⟨rfl, rfl, ⟨[], by simp⟩, hw⟩, ?_⟩
    intro off h
    cases h
  unfold mappageElf at h
  dsimp only at h
  split at h
  · exact hself h
  rename_i hflag
  rw [Bool.not_eq_false] at hflag
  split at h
  · exact hself h
  rename_i hoff
  split at h
  · exact hself h
  -- the window in use, or a new one
  obtain ⟨b, s1, hr⟩ : ∃ b s1, (if isMappedWithMmap (paddrToOffset v pg) s then (true, s)
      else updateMmapRange v (paddrToOffset v pg) s) = (b, s1) := ⟨_, _, rfl⟩
  rw [hr] at h
  dsimp only at h
  have hs1 : s1.used = s.used ∧ s1.pool = s.pool ∧ (∃ t, s1.maps = s.maps ++ t) ∧
      s1.flagUsemmap = true ∧ (b = true → s1.maps[s1.mmapBuf]? = some s1.mmapStartOffset ∧
        v.pageSize ∣ s1.mmapStartOffset ∧ v.pageSize ∣ s1.mmapEndOffset) := by
    split at hr
    · cases hr
      exact ⟨rfl, rfl, ⟨[], by simp⟩, hflag, fun _ => hw hflag⟩
    · obtain ⟨h1, h2, -, h4, h5, h6⟩ := updateMmapRange_spec hv hr
      exact ⟨h1, h2, h4, h5.trans hflag, h6⟩
  obtain ⟨hu, hp, hm, hf, hwin⟩ := hs1
  split at h
  · cases h
    refine ⟨⟨hu, hp, hm, fun h => by cases h⟩, ?_⟩
    intro off h
    cases h
  · rename_i hb
    rw [Bool.not_eq_false] at hb
    split at h
    · cases h
      refine ⟨⟨hu, hp, hm, fun _ => hwin hb⟩, ?_⟩
      intro off h
      cases h
    · rename_i hin
      cases h
      refine ⟨⟨hu, hp, hm, fun _ => hwin hb⟩, ?_⟩
      intro off h
      cases h
      have hfrac : paddrToOffset v pg % v.pageSize = 0 := by
        have hc := (not_or.1 hoff).2
        unfold pageIsFractional at hc
        rw [decide_eq_true_iff, not_or, not_not] at hc
        exact hc.1
      exact ⟨hf, by omega, by omega, by omega,
        Nat.dvd_sub (Nat.dvd_of_mod_eq_zero hfrac) (hwin hb).2.1⟩

theorem EntryOk.mono {maps t : List Nat} {e : Entry} (h : EntryOk v maps e) :
    EntryOk v (maps ++ t) e := by
  unfold EntryOk at h ⊢
  cases hs : e.src with
  | page buf =>
    rw [hs] at h
    exact h
  | map id =>
    rw [hs] at h
    obtain ⟨start, p, h1, h2⟩ := h
    exact ⟨start, p, by rw [List.getElem?_append_left (List.getElem?_eq_some_iff.1 h1).1, h1], h2⟩

/-- A new entry in the slot that was taken. -/
theorem Inv.add {s s1 s2 : State} {e : Entry} (hI : Inv v s) (hsub : ∀ x ∈ s1.used, x ∈ s.used)
    (hlen : s1.used.length + s1.pool.length = 7) (hmaps : s1.maps = s.maps) (hr : Remap v s1 s2)
    (he : EntryOk v s2.maps e) : Inv v (cacheAdd e s2) := by
  obtain ⟨t, ht⟩ := hr.maps
  refine ⟨?_, ?_, hr.window⟩
  · intro x hx
    rcases List.mem_cons.1 hx with rfl | hx
    · exact he
    · show EntryOk v s2.maps x
      rw [ht, hmaps]
      exact (hI.entries x (hsub x (hr.used ▸ hx))).mono
  · show s2.used.length + 1 + s2.pool.length = 8
    rw [hr.used, hr.pool]
    omega

/-- The slot goes back to the pool. -/
theorem Inv.free {s s1 s2 : State} {slot : Nat} (hI : Inv v s) (hsub : ∀ x ∈ s1.used, x ∈ s.used)
    (hlen : s1.used.length + s1.pool.length = 7) (hmaps : s1.maps = s.maps) (hr : Remap v s1 s2) :
    Inv v (cacheFree slot s2) := by
  obtain ⟨t, ht⟩ := hr.maps
  refine ⟨?_, ?_, hr.window⟩
  · intro x hx
    show EntryOk v s2.maps x
    rw [ht, hmaps]
    exact (hI.entries x (hsub x (hr.used ▸ hx))).mono
  · show s2.used.length + (s2.pool.length + 1) = 8
    rw [hr.used, hr.pool]
    omega

theorem paddrToOffset_eq (hv : WellFormed v) {pg : Nat} {p : PtLoad} (hp : p ∈ v.loads)
    (h : p.physStart ≤ pg ∧ pg < p.physEnd) (h0 : paddrToOffset v pg ≠ 0) :
    paddrToOffset v pg = pg - p.physStart + p.fileOffset := by
  unfold paddrToOffset at h0 ⊢
  split at h0
  · rename_i q hq
    have hin := List.find?_some hq
    have hm := List.mem_of_find?_eq_some hq
    simp only [decide_eq_true_iff] at hin
    have hsz := hv.filesz q hm
    rw [hv.unique hm hp ⟨hin.1, by omega⟩ h]
  · exact absurd rfl h0

/-- **One page**: the answer is that of `readpage_elf`, and the invariant stays. -/
theorem readPage_ok (hv : WellFormed v) {s : State} {paddr n : Nat} (hI : Inv v s)
    (ha : paddr < 2 ^ 64) (hn : paddr % v.pageSize + n ≤ v.pageSize) (hok : pageOk v paddr n s = true) :
    (readPage v paddr n s).1 = pageOutcome v paddr n ∧ Inv v (readPage v paddr n s).2 := by
  have hpg : v.pageSize ∣ paddr / v.pageSize * v.pageSize := Nat.dvd_mul_left _ _
  have hlt : paddr / v.pageSize * v.pageSize < 2 ^ 64 :=
    Nat.lt_of_le_of_lt (Nat.div_mul_le_self _ _) ha
  unfold readPage
  unfold pageOk at hok
  unfold pageOutcome
  dsimp only at hok ⊢
  generalize paddr / v.pageSize * v.pageSize = pg at *
  cases hs : cacheSearch pg n s with
  | some r =>
    obtain ⟨e, s'⟩ := r
    rw [hs] at hok
    obtain ⟨hmem, hholds, heq⟩ := cacheSearch_cases hs
    have hlive : ∀ id, e.src = .map id → id ∉ s'.released := by
      intro id hid hrel
      rw [heq] at hrel
      exact absurd hid (by simpa using List.all_eq_true.1 hok id hrel)
    have hmaps : s'.maps = s.maps := by rw [heq]
    have he : EntryOk v s'.maps e := hmaps ▸ hI.entries e hmem
    obtain ⟨r1, r2, r3⟩ := he.range hv
    obtain ⟨hu, hle, hend⟩ := holds_page hpg hlt r1 r2 r3 hholds
    obtain ⟨buf, hread, hcopy⟩ := copyFrom_ok hv he hlive hle hend hn
    refine ⟨?_, hI.search hs⟩
    dsimp only
    rw [hu, hcopy, hread]
  | none =>
    rw [hs] at hok
    obtain ⟨slot, s1, halloc, hsub, hlen, hmaps, hflag, hbuf, hstart, hendo⟩ := cacheAlloc_spec hI
    have hw := hI.window
    rw [← hflag, ← hbuf, ← hstart, ← hendo, ← hmaps] at hw
    rw [halloc] at hok ⊢
    dsimp only at hok ⊢
    obtain ⟨r, s2, hmp⟩ : ∃ r s2, mappageElf v pg s1 = (r, s2) := ⟨_, _, rfl⟩
    obtain ⟨hremap, hin⟩ := mappageElf_spec hv hw hmp
    rw [hmp] at hok ⊢
    cases r with
    | none =>
      dsimp only
      cases hr : readpageElf v pg with
      | none => exact ⟨rfl, hI.free hsub hlen hmaps hremap⟩
      | some buf => exact ⟨rfl, hI.add hsub hlen hmaps hremap ⟨rfl, hpg, hlt, hr⟩⟩
    | some off =>
      dsimp only at hok ⊢
      obtain ⟨hf, h0, hoff, hfit, hdvd⟩ := hin off rfl
      obtain ⟨hlive, hwin⟩ := of_decide_eq_true hok
      obtain ⟨p, hp, hpin⟩ := List.any_eq_true.1 hwin
      obtain ⟨hp1, hp2, hlo, hhi, hfile⟩ := of_decide_eq_true hpin
      obtain ⟨hm, hd1, hd2⟩ := hremap.window hf
      have hplace := paddrToOffset_eq hv hp ⟨hp1, hp2⟩ h0
      have hsub64 : u64sub pg off = pg - off := u64sub_of_le hlt (by omega)
      rw [hsub64]
      have hpos := v.pageSize_pos
      have hmapok : MapOk v { slot, paddr := pg - off
                              buflen := s2.mmapEndOffset - s2.mmapStartOffset
                              src := .map s2.mmapBuf } s2.mmapStartOffset p :=
        { mem := hp
          lo := hlo
          hi := by dsimp only; omega
          file := by dsimp only; omega
          paddr := by dsimp only; omega
          aligned := Nat.dvd_sub hpg hdvd
          buflen := Nat.dvd_sub hd2 hd1 }
      have he : EntryOk v s2.maps { slot, paddr := pg - off
                                    buflen := s2.mmapEndOffset - s2.mmapStartOffset
                                    src := .map s2.mmapBuf } := ⟨_, p, hm, hmapok⟩
      refine ⟨?_, hI.add hsub hlen hmaps hremap he⟩
      obtain ⟨buf, hread, hcopy⟩ := copyFrom_ok hv (s := cacheAdd _ s2) he
        (fun id hid => by cases hid; exact hlive) (show pg - off ≤ pg by omega)
        (by dsimp only; omega) hn
      have hback : pg - (pg - off) = off := by omega
      rw [hread]
      dsimp only at hcopy
      rw [hback] at hcopy
      exact hcopy

/-! ## Runs -/

/-- `pageOk` for each page of a request, in the state in which the page is read. -/
def requestOk (v : Vmcore) (addr size : Nat) (s : State) : Bool :=
  let n := readSize v addr size
  pageOk v addr n s &&
    match readPage v addr n s with
    | (.ok _, s) =>
      if _h : size - n = 0 then true else requestOk v ((addr + n) % 2 ^ 64) (size - n) s
    | _ => true
termination_by size
decreasing_by
  have := @readSize_pos v addr size (by omega)
  omega

/-- A series of requests: what each returned. -/
def runReadmem (v : Vmcore) : List (Nat × Nat) → State → List Outcome
  | [], _ => []
  | (addr, size) :: reqs, s =>
    let r := readmem v addr size s
    r.1 :: runReadmem v reqs r.2

def runOk (v : Vmcore) : List (Nat × Nat) → State → Bool
  | [], _ => true
  | (addr, size) :: reqs, s => requestOk v addr size s && runOk v reqs (readmem v addr size s).2

theorem readSize_le (addr size : Nat) :
    addr % v.pageSize + readSize v addr size ≤ v.pageSize := by
  have := Nat.mod_lt addr v.pageSize_pos
  unfold readSize
  omega

/-- **One request**, by induction over its pages. -/
theorem readmem_ok (hv : WellFormed v) (addr size : Nat) {s : State} (hI : Inv v s)
    (hr : addr < 2 ^ 64) (hok : requestOk v addr size s = true) :
    (readmem v addr size s).1 = uncachedRead v addr size ∧ Inv v (readmem v addr size s).2 := by
  induction size using Nat.strongRecOn generalizing addr s with
  | ind size ih =>
    rw [requestOk] at hok
    rw [readmem, uncachedRead]
    have hn := readSize_le (v := v) addr size
    obtain ⟨hpage, hrest⟩ := Bool.and_eq_true_iff.1 hok
    obtain ⟨hout, hI'⟩ := readPage_ok hv hI hr hn hpage
    rw [← hout]
    generalize hrp : readPage v addr (readSize v addr size) s = r at *
    obtain ⟨o, s'⟩ := r
    cases o with
    | failed => exact ⟨rfl, hI'⟩
    | fault => exact ⟨rfl, hI'⟩
    | ok b =>
      dsimp only at hrest ⊢
      by_cases hz : size - readSize v addr size = 0
      · rw [dif_pos hz, dif_pos hz]
        exact ⟨rfl, hI'⟩
      · rw [dif_neg hz] at hrest
        rw [dif_neg hz, dif_neg hz]
        have hn0 := @readSize_pos v addr size (by omega)
        obtain ⟨h1, h2⟩ := ih _ (by omega) ((addr + readSize v addr size) % 2 ^ 64) hI'
          (Nat.mod_lt _ (by decide)) hrest
        rw [← h1]
        generalize readmem v ((addr + readSize v addr size) % 2 ^ 64)
          (size - readSize v addr size) s' = q at *
        obtain ⟨o, s''⟩ := q
        cases o with
        | ok b' => exact ⟨rfl, h2⟩
        | failed => exact ⟨rfl, h2⟩
        | fault => exact ⟨rfl, h2⟩

theorem inv_initialState (hv : WellFormed v) (sysMmap : List Bool) :
    Inv v (initialState v sysMmap) := by
  unfold initialState
  split
  · exact ⟨by simp, rfl, fun h => by cases h⟩
  · rename_i p _ _
    generalize hr : updateMmapRange v (paddrToOffset v p.physStart) { sysMmap } = r
    obtain ⟨b, s⟩ := r
    obtain ⟨h1, h2, -, -, -, h6⟩ := updateMmapRange_spec hv hr
    refine ⟨?_, ?_, h6⟩
    · show ∀ e ∈ s.used, EntryOk v s.maps e
      rw [h1]
      simp
    · show s.used.length + s.pool.length = 8
      rw [h1, h2]
      rfl

theorem runReadmem_ok (hv : WellFormed v) : ∀ (reqs : List (Nat × Nat)) {s : State}, Inv v s →
    (∀ q ∈ reqs, q.1 < 2 ^ 64) → runOk v reqs s = true →
    runReadmem v reqs s = reqs.map fun q => uncachedRead v q.1 q.2
  | [], _, _, _, _ => rfl
  | (addr, size) :: reqs, s, hI, hr, hok => by
    obtain ⟨hok1, hok2⟩ := Bool.and_eq_true_iff.1 hok
    obtain ⟨h1, h2⟩ := readmem_ok hv addr size hI (hr _ List.mem_cons_self) hok1
    have ih := runReadmem_ok hv reqs h2 (fun q hq => hr q (List.mem_cons_of_mem _ hq)) hok2
    show (readmem v addr size s).1 :: _ = uncachedRead v addr size :: _
    rw [h1, ih]

/-- **Cached reads agree with uncached ones** in every run that uses no unmapped window and maps only
windows that lie in data. -/
theorem readmem_agrees (hv : WellFormed v) (sysMmap : List Bool) (reqs : List (Nat × Nat))
    (hr : ∀ q ∈ reqs, q.1 < 2 ^ 64) (hok : runOk v reqs (initialState v sysMmap) = true) :
    runReadmem v reqs (initialState v sysMmap) = reqs.map fun q => uncachedRead v q.1 q.2 :=
  runReadmem_ok hv reqs (inv_initialState hv sysMmap) hr hok

/-- A segment with data in its first two pages only; other data follows in the file. -/
def shortVmcore : Vmcore where
  pageSize := 4096
  loads := [{ physStart := 0, physEnd := 0x4000, fileOffset := 0x1000, fileSize := 0x2000 }]
  file := List.replicate 0x3000 0 ++ List.replicate 0x2000 1
  pageSize_dvd := dvd_four_kib

/-- The same file as the data of the whole segment. -/
def fullVmcore : Vmcore :=
  { shortVmcore with
    loads := [{ physStart := 0, physEnd := 0x4000, fileOffset := 0x1000, fileSize := 0x4000 }] }

/-- The first request maps the segment, the second hits the entry in two pages. -/
theorem readmem_agrees_full : runReadmem fullVmcore [(0x10, 2), (0x1ffe, 4)]
    (initialState fullVmcore []) = [.ok [0, 0], .ok [0, 0, 1, 1]] := by
  have hv : WellFormed fullVmcore := ⟨List.pairwise_singleton _ _, by decide, by decide⟩
  rw [readmem_agrees hv [] _ (by decide) (by decide +kernel)]
  decide +kernel

/-- The page after the data is served from the window, which goes to the end of the segment in
memory: the bytes are not zeros but those that follow in the file. -/
theorem readmem_past_filesz : WellFormed shortVmcore ∧
    runReadmem shortVmcore [(0, 1), (0x2000, 1)] (initialState shortVmcore []) = [.ok [0], .ok [1]] ∧
    uncachedRead shortVmcore 0x2000 1 = .ok [0] := by
  have hv : WellFormed shortVmcore := ⟨List.pairwise_singleton _ _, by decide, by decide⟩
  exact ⟨hv, by decide +kernel, by decide +kernel⟩

end Readmem
