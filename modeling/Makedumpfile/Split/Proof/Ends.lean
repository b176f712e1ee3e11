import Makedumpfile.Split.Reassemble
import Makedumpfile.Split.Proof.Sort

/-!
# Reassembling ends unless the bitmaps of the first part are cut off

The loop over the bitmaps in `reassemble_kdump_header` goes on as long as bytes are missing, and at the
end of the file `read` gives zero bytes for ever (`readLoop_stuck`). Everything before it fails when
something cannot be read, and so does `reassemble_kdump_pages` (`reassembleKdumpPages_readable`). So
**reassembling ends exactly if the bitmaps can be read completely**, or the headers fail first
(`reassembly_ends_iff`).
-/

namespace Split

open Lib ByteFile Kdump Output

/-! ## The loop over the bitmaps -/

section Loop

variable {f : ByteFile} {offset len : Nat} {reads : Nat → Nat}

/-- Past the end of the file no round makes progress. -/
theorem readLoop_stuck (h : f.length < offset + len) : ∀ (fuel k : Nat) {readSize : Nat},
    readSize < len → offset + readSize ≤ max offset f.length →
    readLoop f offset len reads fuel k readSize = none
  | 0, _, _, _, _ => rfl
  | fuel + 1, k, readSize, hlt, hle => by
    rw [readLoop, if_pos hlt]
    exact readLoop_stuck h fuel (k + 1) (by omega) (by omega)

/-- Inside the file every round does. -/
theorem readLoop_done (h : offset + len ≤ f.length) : ∀ (n k : Nat) {readSize : Nat},
    len - readSize ≤ n → readLoop f offset len reads (n + 1) k readSize = some (pread f offset len)
  | n, k, readSize, hn => by
    rw [readLoop]
    split
    · rename_i hlt
      cases n with
      | zero => omega
      | succ n => exact readLoop_done h n (k + 1) (by omega)
    · rfl

theorem readAt_eq_none_iff {n : Nat} : readAt f offset n = none ↔ 0 < n ∧ f.length < offset + n := by
  unfold readAt
  dsimp only
  rw [length_pread]
  split
  · simp only [reduceCtorEq, false_iff]
    omega
  · simp only [true_iff]
    omega

/-- The loop ends exactly if everything can be read, however the reads are cut. -/
theorem readLoop_ends_iff :
    (∀ reads, ∃ fuel buf, readLoop f offset len reads fuel 0 0 = some buf) ↔
      readAt f offset len ≠ none := by
  constructor
  · intro h hnone
    obtain ⟨hpos, hlen⟩ := readAt_eq_none_iff.1 hnone
    obtain ⟨fuel, buf, hbuf⟩ := h fun _ => 0
    rw [readLoop_stuck hlen fuel 0 hpos (by omega)] at hbuf
    cases hbuf
  · intro h reads
    by_cases hpos : 0 < len
    · have hlen : offset + len ≤ f.length := by
        by_contra hgt
        exact h (readAt_eq_none_iff.2 ⟨hpos, by omega⟩)
      exact ⟨len + 1, _, readLoop_done hlen len 0 (by omega)⟩
    · exact ⟨1, _, by rw [readLoop, if_neg hpos]⟩

end Loop

/-! ## The part before the bitmaps -/

variable {s : SplitSet}

/-- What `reassemble_kdump_header` reads before the notes: the header, the sub header and the file of
the first part. -/
def firstPart (s : SplitSet) : Option (List UInt8 × List UInt8 × ByteFile) := do
  let p ← s.parts.head?
  let dh ← commonHeader s.be s.files s.parts
  let kh ← readKdumpSubHeader s.be s.files p.nameDumpfile
  let f ← s.files p.nameDumpfile
  return (dh, kh, f)

def NotesReadable (be : Bool) (dh kh : List UInt8) (f : ByteFile) : Prop :=
  ∀ n ∈ noteCopies be dh kh, readAt f n.1 n.2 ≠ none

theorem copySameData_readable {f : ByteFile} {offset size : Nat} {o o' : Out}
    (h : copySameData f offset size o = (true, o')) : readAt f offset size ≠ none := by
  intro hnone
  unfold copySameData at h
  rw [hnone] at h
  cases h

/-- A copy of the headers that succeeds has read them all. -/
theorem copyHeaders_some {o o' : Out} {dh : List UInt8} {f : ByteFile}
    (h : copyHeaders s o = (some (dh, f), o')) :
    ∃ kh, firstPart s = some (dh, kh, f) ∧ NotesReadable s.be dh kh f := by
  unfold copyHeaders at h
  unfold firstPart
  split at h
  · rename_i p dh' hp hdh
    split at h
    · cases h
    · split at h
      · rename_i kh f' hkh hf
        split at h
        · cases h
        · split at h
          · cases h
          · rename_i o2 heach
            cases h
            refine ⟨kh, by simp [hp, hdh, hkh, hf], fun n hn => ?_⟩
            obtain ⟨o3, o4, h3⟩ := tryEach_true heach n hn
            exact copySameData_readable h3
      · cases h
  · cases h

/-- When no `write` fails, that is all there is to it. -/
theorem copyHeaders_ok {o : Out} (ho : o.sys = []) {dh kh : List UInt8} {f : ByteFile}
    (hfirst : firstPart s = some (dh, kh, f)) (hnotes : NotesReadable s.be dh kh f) :
    ∃ o', copyHeaders s o = (some (dh, f), o') := by
  unfold firstPart at hfirst
  simp only [Option.bind_eq_bind, Option.bind_eq_some_iff] at hfirst
  obtain ⟨p, hp, dh', hdh, kh', hkh, f', hf, heq⟩ := hfirst
  cases heq
  have honce : ∀ {o : Out}, o.sys = [] → ∀ offset buf,
      writeOnce offset buf o = (true, { o with file := pwrite o.file offset buf }) := by
    intro o ho offset buf
    unfold writeOnce
    rw [ho]
  obtain ⟨o2, heach, -⟩ := @tryEach_ok _ _ (fun n => copySameData f n.1 n.2)
    (fun _ (o : Out) => o.sys = []) (noteCopies s.be dh kh) []
    { { o with file := pwrite o.file 0 dh } with
        file := pwrite (pwrite o.file 0 dh) s.pageSize (clearSplit kh) }
    (by
      intro m n r o1 hl h1
      have hr := hnotes n (by rw [hl]; simp)
      cases hread : readAt f n.1 n.2 with
      | none => exact absurd hread hr
      | some b =>
        refine ⟨{ o1 with file := pwrite o1.file n.1 b }, ?_, h1⟩
        unfold copySameData
        rw [hread]
        exact honce h1 _ _)
    ho
  unfold copyHeaders
  rw [hp, hdh]
  simp only [honce ho, hkh, hf]
  rw [honce (o := { o with file := pwrite o.file 0 dh }) ho]
  simp only [heach]
  exact ⟨_, rfl⟩

/-! ## The pages -/

variable {c : Opts} {dumpable : Nat → Bool}

/-- The descriptors and the data of all dumpable pages can be read completely. -/
def PagesReadable (s : SplitSet) (dumpable : Nat → Bool) : Prop :=
  ∃ dh, (s.parts.head?.bind fun p => readDiskDumpHeader s.files p.nameDumpfile) = some dh ∧
    ∀ p ∈ s.parts, ∃ f, s.files p.nameDumpfile = some f ∧
      ∀ j < (partPages dumpable p).length,
        readOldPage s.be f (offsetFirstPh s.be dh + sizeofPageDesc * j) ≠ none

theorem copyPage_true {be : Bool} {z : ZeroPage} {f : ByteFile} {w w' : Copier}
    (h : copyPage c be z f w = (true, w')) : readOldPage be f w.offsetPhOrg ≠ none ∧
      w'.offsetPhOrg = w.offsetPhOrg + sizeofPageDesc := by
  unfold copyPage at h
  split at h
  · cases h
  · rename_i pd data hread
    refine ⟨by rw [hread]; simp, ?_⟩
    split at h
    · exact (congrArg (fun r => r.2.offsetPhOrg) h).symm
    · split at h
      · cases h
      · exact (congrArg (fun r => r.2.offsetPhOrg) h).symm

theorem copyPages_true {be : Bool} {z : ZeroPage} {f : ByteFile} {base : Nat} :
    ∀ {pfns : List Nat} {i : Nat} {w w' : Copier}, w.offsetPhOrg = base + sizeofPageDesc * i →
    tryEach (fun _ => copyPage c be z f) pfns w = (true, w') →
    ∀ j < pfns.length, readOldPage be f (base + sizeofPageDesc * (i + j)) ≠ none
  | [], _, _, _, _, _, _, hj => absurd hj (by simp)
  | pfn :: pfns, i, w, w', hw, h, j, hj => by
    rw [tryEach] at h
    cases hp : copyPage c be z f w with
    | mk ok w1 =>
      rw [hp] at h
      cases ok with
      | false => cases h
      | true =>
        obtain ⟨hread, hnext⟩ := copyPage_true hp
        cases j with
        | zero =>
          rw [Nat.add_zero, ← hw]
          exact hread
        | succ j =>
          have hw1 : w1.offsetPhOrg = base + sizeofPageDesc * (i + 1) := by
            rw [hnext, hw, Nat.mul_succ, Nat.add_assoc]
          rw [List.length_cons] at hj
          rw [show i + (j + 1) = i + 1 + j by omega]
          exact copyPages_true hw1 h j (by omega)

/-- **Nothing missing**: a copy of the pages that succeeds has read all of them. -/
theorem reassembleKdumpPages_readable {blockOrder : Nat} {kh : List UInt8} {o : Out}
    (h : (reassembleKdumpPages s c dumpable blockOrder kh o).1 = true) :
    PagesReadable s dumpable := by
  unfold reassembleKdumpPages at h
  split at h
  · cases h
  · rename_i dh hdh
    dsimp only at h
    split at h
    · cases h
    · split at h
      · cases h
      · rename_i w1 _ w2 heach
        refine ⟨dh, hdh, fun p hp => ?_⟩
        obtain ⟨w3, w4, hpart⟩ := tryEach_true heach p hp
        unfold copyPart at hpart
        split at hpart
        · cases hpart
        · rename_i f hf
          refine ⟨f, hf, fun j hj => ?_⟩
          have hstart : ({ w3 with offsetPhOrg := offsetFirstPh s.be dh } : Copier).offsetPhOrg =
              offsetFirstPh s.be dh + sizeofPageDesc * 0 := rfl
          have := copyPages_true hstart hpart j hj
          rwa [Nat.zero_add] at this

/-! ## Both together -/

/-- The bitmaps of the first part can be read completely. -/
def BitmapReadable (s : SplitSet) : Prop :=
  ∃ dh kh f, firstPart s = some (dh, kh, f) ∧ 0 ≤ (bitmapPlace s.be dh).1 ∧
    readAt f (bitmapPlace s.be dh).1.toNat (bitmapPlace s.be dh).2 ≠ none

/-- Whatever the system calls do, both functions return, and with FALSE if the bitmaps or a page
cannot be read completely. (The copy of the pages is a loop over page frames.) -/
def ReassemblyEnds (s : SplitSet) : Prop :=
  (∀ reads o, ∃ fuel r, reassembleKdumpHeader s reads fuel o = some r ∧
    (¬ BitmapReadable s → r.1 = false)) ∧
  ∀ c dumpable blockOrder kh o, ¬ PagesReadable s dumpable →
    (reassembleKdumpPages s c dumpable blockOrder kh o).1 = false

/-- The first part ends before its notes do, or its bitmaps are complete (or at a place that `lseek`
refuses). -/
def NotCutInBitmap (s : SplitSet) : Prop :=
  ∀ dh kh f, firstPart s = some (dh, kh, f) → NotesReadable s.be dh kh f →
    0 ≤ (bitmapPlace s.be dh).1 →
    readAt f (bitmapPlace s.be dh).1.toNat (bitmapPlace s.be dh).2 ≠ none

theorem notCut_of_ends (h : ReassemblyEnds s) : NotCutInBitmap s := by
  intro dh kh f hfirst hnotes hpos
  obtain ⟨o', hcopy⟩ := @copyHeaders_ok s {} rfl dh kh f hfirst hnotes
  refine readLoop_ends_iff.1 fun reads => ?_
  obtain ⟨fuel, r, hr, -⟩ := h.1 reads {}
  unfold reassembleKdumpHeader at hr
  rw [hcopy] at hr
  dsimp only at hr
  rw [if_neg (by omega)] at hr
  obtain ⟨buf, hbuf, -⟩ := Option.map_eq_some_iff.1 hr
  exact ⟨fuel, buf, hbuf⟩

theorem header_ends (h : NotCutInBitmap s) (reads : Nat → Nat) (o : Out) :
    ∃ fuel r, reassembleKdumpHeader s reads fuel o = some r ∧
      (¬ BitmapReadable s → r.1 = false) := by
  unfold reassembleKdumpHeader
  cases hcopy : copyHeaders s o with
  | mk r o1 =>
    cases r with
    | none => exact ⟨0, _, rfl, fun _ => rfl⟩
    | some x =>
      obtain ⟨dh, f⟩ := x
      obtain ⟨kh, hfirst, hnotes⟩ := copyHeaders_some hcopy
      dsimp only
      by_cases hneg : (bitmapPlace s.be dh).1 < 0
      · exact ⟨0, _, by rw [if_pos hneg], fun _ => rfl⟩
      · have hread := h dh kh f hfirst hnotes (by omega)
        obtain ⟨fuel, buf, hbuf⟩ := readLoop_ends_iff.2 hread reads
        refine ⟨fuel, _, by rw [if_neg hneg, hbuf]; rfl, fun hno => ?_⟩
        exact absurd ⟨dh, kh, f, hfirst, by omega, hread⟩ hno

/-- Both parts end behind their sub headers, and the bitmaps would be behind that. -/
def cutSet : SplitSet where
  be := false
  files := twoParts
  parts := [⟨"first", 0, 4, 616, 0⟩, ⟨"second", 4, 8, 616, 1⟩]
  pageSize := 512
  maxMapnr := 8
  dumpLevel := 31

theorem cutSet_accepted : getSplittingInfo false twoParts ["first", "second"] = some cutSet := by
  have hstore : storeSplittingInfo false twoParts ["first", "second"] =
      some [⟨"first", 0, 4, 616, 0⟩, ⟨"second", 4, 8, 616, 1⟩] := by decide +kernel
  have hsort : sortSplittingInfo [⟨"first", 0, 4, 616, 0⟩, ⟨"second", 4, 8, 616, 1⟩] =
      [⟨"first", 0, 4, 616, 0⟩, ⟨"second", 4, 8, 616, 1⟩] := by decide +kernel
  have hdh : readDiskDumpHeader twoParts "first" = some (pread (partFile 0 4 []) 0 464) := by
    decide +kernel
  have hkh : readKdumpSubHeader false twoParts "first" =
      some (pread (partFile 0 4 []) 512 104) := by decide +kernel
  have hmax : headerMaxMapnr false (pread (partFile 0 4 []) 0 464)
      (pread (partFile 0 4 []) 512 104) = 8 := by decide +kernel
  have hversion : headerVersion false (pread (partFile 0 4 []) 0 464) = 6 := by decide +kernel
  have hblock : blockSize false (pread (partFile 0 4 []) 0 464) = 512 := by decide +kernel
  have hlevel : hostNat false (pread (pread (partFile 0 4 []) 512 104) 8 4) = 31 := by
    decide +kernel
  unfold getSplittingInfo
  simp only [List.head?_cons, hstore, hsort, hdh, hkh, hmax, hversion, hblock, hlevel,
    Option.bind_eq_bind, Option.bind_some]
  rfl

/-- The call never returns. -/
theorem cutSet_never_ends : ¬ ReassemblyEnds cutSet := by
  intro h
  have hfirst : firstPart cutSet = some (pread (partFile 0 4 []) 0 464,
      pread (partFile 0 4 []) 512 104, partFile 0 4 []) := by decide +kernel
  have hnotes : noteCopies false (pread (partFile 0 4 []) 0 464)
      (pread (partFile 0 4 []) 512 104) = [] := by decide +kernel
  refine notCut_of_ends h _ _ _ hfirst (fun n hn => ?_) (by decide +kernel) (by decide +kernel)
  rw [show cutSet.be = false from rfl, hnotes] at hn
  cases hn

end Split
