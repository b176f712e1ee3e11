import Makedumpfile.Sadump.Header
import Makedumpfile.Lib.Rho
import Mathlib.Data.Fintype.Vector
import Mathlib.Data.Set.Finite.Range

/-!
# The search for the headers comes to an end, or does not

The headers of a device announce block sizes one after the other (`Place.next`). The search follows
them, and it ends when the announced sizes do.
-/

namespace Sadump

open Lib ByteFile

/-! ## The places of the search -/

/-- The buffers and the block size with which the next search begins. -/
structure Place extends Headers where
  size : Nat

/-- The device has all the bytes of a read. -/
def Whole (dev : ByteFile) (off n : Nat) : Prop := (pread dev off n).length = n

namespace Place

variable (dev : ByteFile) (alloc : Alloc) (p : Place)

/-- The partition header buffer with the first block. -/
def first : Buffer := p.sph.fill (pread dev 0 p.size)

/-- The partition header: without one in the first block, the second one is taken. -/
def part : Buffer :=
  if (p.first dev).IsPartHeader then p.first dev else (p.first dev).fill (pread dev p.size p.size)

def media : Buffer :=
  if (p.first dev).IsPartHeader then p.smh else p.smh.fill (pread dev 0 p.size)

def format : FormatType :=
  if (p.first dev).IsPartHeader then
    if (p.first dev).setDiskSet = 0 then .singlePartition else .diskset
  else .mediaBackup

/-- The size of the disk set header, whose first member counts its blocks. -/
def setSize : Nat := leNat (pread dev p.size 4) * p.size

/-- The room for the disk set header. -/
def room : Nat := if p.format dev = .diskset ∧ p.size < p.setSize dev then p.setSize dev else p.sdhSize

def dumpOffset : Nat :=
  match p.format dev with
  | .singlePartition => p.size
  | .diskset => p.size + p.setSize dev
  | .mediaBackup => p.size + p.size

def dump : Buffer := p.sh.fill (pread dev (p.dumpOffset dev) p.size)

/-- The buffers after the search with this block size. -/
def found : Headers := ⟨p.part dev, p.dump dev, p.media dev, p.room dev⟩

/-- A partition header with its magic numbers. -/
structure PartFound : Prop where
  first : Whole dev 0 p.size
  second : ¬ (p.first dev).IsPartHeader → Whole dev p.size p.size
  part : (p.part dev).IsPartHeader
  magic : verifyMagicNumber (p.part dev) = true

/-- The first disk of a disk set, whose header has a place to be read to. -/
structure SetFound : Prop where
  diskset : p.format dev = .diskset
  firstDisk : (p.part dev).setDiskSet = 1
  blocks : Whole dev p.size 4
  memory : p.size < p.setSize dev → alloc (p.setSize dev) = true

/-- The dump header is there, behind the headers of its format. -/
structure Located : Prop where
  partFound : p.PartFound dev
  set : p.format dev = .diskset → p.SetFound dev alloc ∧ Whole dev p.size (p.setSize dev)
  whole : Whole dev (p.dumpOffset dev) p.size
  signature : (p.dump dev).signature.take 7 = sadumpSignature
  media : p.format dev = .mediaBackup → (p.found dev).MediaOk

open Classical in
/-- The next place: the dump header announces another block size. -/
noncomputable def next : Option Place :=
  if p.Located dev alloc ∧ (p.dump dev).blockSize ≠ p.size then
    some ⟨p.found dev, (p.dump dev).blockSize⟩
  else none

/-- The blocks fit into the buffers, and the disk set header too. -/
structure Fits : Prop where
  size : p.size ≤ sadumpDefaultBlockSize
  set : p.PartFound dev → p.SetFound dev alloc →
    (pread dev p.size (p.setSize dev)).length ≤ p.room dev

/-- The dump header announces the block size in use, and its SMRAM state can be read if it has one. -/
structure Agrees : Prop where
  located : p.Located dev alloc
  agree : (p.dump dev).blockSize = p.size
  smram : 0 < (p.dump dev).subHdrSize → Whole dev (p.dumpOffset dev + p.size) 4

/-- The dump header in use counts its CPUs, and its block covers it if it is kept. -/
structure Sound : Prop where
  cpus : p.Agrees dev alloc → 0 < (p.dump dev).subHdrSize → (p.dump dev).nrCpus ≠ 0
  covers : p.Agrees dev alloc → (p.dump dev).bitmapBlocks ≠ 0 →
    (p.dump dev).dumpableBitmapBlocks ≠ 0 → sizeofSadumpHeader ≤ p.size

end Place

/-! ## One read -/

/-- No read was longer than its buffer, and nothing was divided by zero. -/
def Detection.Safe (s : Detection) : Prop :=
  (∀ r ∈ s.reads, r.bytes ≤ r.size) ∧ 0 ∉ s.divisors

section step

variable {α β : Type} {x : Detect α} {f : α → Detect β} {s s' : Detection} {a : α} {e : Failure}

theorem bind_ok (h : x s = .ok a s') : (x >>= f) s = f a s' := by
  simp [bind, EStateM.bind, h]

theorem bind_error (h : x s = .error e s') : (x >>= f) s = .error e s' := by
  simp [bind, EStateM.bind, h]

theorem map_ok {g : α → β} (h : x s = .ok a s') : (g <$> x) s = .ok (g a) s' := by
  simp [Functor.map, EStateM.map, h]

theorem map_error {g : α → β} (h : x s = .error e s') : (g <$> x) s = .error e s' := by
  simp [Functor.map, EStateM.map, h]

@[simp] theorem get_bind (f : Detection → Detect β) (s : Detection) :
    ((get : Detect Detection) >>= f) s = f s s := rfl

@[simp] theorem modify_bind (g : Detection → Detection) (f : PUnit → Detect β) (s : Detection) :
    ((modify g : Detect PUnit) >>= f) s = f ⟨⟩ (g s) := rfl

@[simp] theorem throw_bind (e : Failure) (f : α → Detect β) (s : Detection) :
    ((throw e : Detect α) >>= f) s = .error e s := rfl

@[simp] theorem pure_run (a : α) (s : Detection) : (pure a : Detect α) s = .ok a s := rfl

variable {dev : ByteFile} {h : Headers} {size off bytes : Nat} {reads : List DeviceRead}
  {divisors : List Nat} {store : List UInt8 → Headers → Headers} {ret : Failure}

theorem safe_read (n : Nat) : Detection.Safe ⟨h, off, ⟨size, n⟩ :: reads, divisors⟩ ↔
    n ≤ size ∧ Detection.Safe ⟨h, off, reads, divisors⟩ := by
  simp [Detection.Safe, and_assoc]

theorem safe_divisor (n : Nat) : Detection.Safe ⟨h, off, reads, n :: divisors⟩ ↔
    n ≠ 0 ∧ Detection.Safe ⟨h, off, reads, divisors⟩ := by
  simp only [Detection.Safe, List.mem_cons, not_or]
  constructor
  · rintro ⟨h1, h2, h3⟩
    exact ⟨fun h => h2 h.symm, h1, h3⟩
  · rintro ⟨h1, h2, h3⟩
    exact ⟨h2, fun h => h1 h.symm, h3⟩

/-- The buffers and the offset are not what makes a state safe. -/
theorem safe_congr {h' : Headers} {off' : Nat} : Detection.Safe ⟨h, off, reads, divisors⟩ ↔
    Detection.Safe ⟨h', off', reads, divisors⟩ := Iff.rfl

theorem readDevice_whole (ho : off + bytes < 2 ^ 63) (hw : Whole dev off bytes) :
    readDevice dev size bytes store ret ⟨h, off, reads, divisors⟩ =
      .ok (pread dev off bytes)
        ⟨store (pread dev off bytes) h, off + bytes, ⟨size, bytes⟩ :: reads, divisors⟩ := by
  have hlt : off < 2 ^ 63 := by omega
  have hlen : (pread dev off bytes).length = bytes := hw
  have hmod : (off + bytes) % 2 ^ 64 = off + bytes := Nat.mod_eq_of_lt (by omega)
  simp only [readDevice, hlt, hlen, hmod, and_self, ↓reduceIte]

theorem readDevice_short (ho : off < 2 ^ 63) (hw : ¬ Whole dev off bytes) :
    readDevice dev size bytes store ret ⟨h, off, reads, divisors⟩ =
      .error ret ⟨store (pread dev off bytes) h, off,
        ⟨size, (pread dev off bytes).length⟩ :: reads, divisors⟩ := by
  have hlen : ¬ (pread dev off bytes).length = bytes := hw
  simp only [readDevice, ho, hlen, and_false, ↓reduceIte]

theorem readU32_whole (ho : off < 2 ^ 62) (hw : Whole dev off 4) :
    readU32 dev ⟨h, off, reads, divisors⟩ =
      .ok (leNat (pread dev off 4)) ⟨h, off, ⟨4, 4⟩ :: reads, divisors⟩ := by
  unfold readU32
  rw [bind_ok (readDevice_whole (by omega) hw)]
  rfl

theorem readU32_short (ho : off < 2 ^ 63) (hw : ¬ Whole dev off 4) :
    readU32 dev ⟨h, off, reads, divisors⟩ =
      .error .false ⟨h, off, ⟨4, (pread dev off 4).length⟩ :: reads, divisors⟩ :=
  bind_error (readDevice_short ho hw)

end step

/-! ## The headers before the dump header -/

theorem setBlocks_lt (dev : ByteFile) (off : Nat) : leNat (pread dev off 4) < 2 ^ 32 :=
  Nat.lt_of_lt_of_le (leNat_lt _) (Nat.pow_le_pow_right (by decide) (length_pread_le dev off 4))

section stages

variable {dev : ByteFile} {alloc : Alloc} {p : Place} {reads : List DeviceRead} {divisors : List Nat}

variable (dev) in
theorem setSize_lt (hb : p.size ≤ sadumpDefaultBlockSize) : p.setSize dev < 2 ^ 45 := by
  have h1 := setBlocks_lt dev p.size
  have h2 : p.setSize dev ≤ 2 ^ 32 * 4096 := Nat.mul_le_mul (Nat.le_of_lt h1) hb
  omega

/-- The end of the headers of one block each. -/
def Place.partEnd (dev : ByteFile) (p : Place) : Nat :=
  if (p.first dev).IsPartHeader then p.size else p.size + p.size

variable (dev reads divisors) in
theorem readPartHeader_spec (hb : p.size ≤ sadumpDefaultBlockSize) :
    (∃ reads', readPartHeader dev p.size ⟨p.toHeaders, 0, reads, divisors⟩ =
        .ok (if (p.part dev).IsPartHeader then some (p.format dev) else none)
          ⟨⟨p.part dev, p.sh, p.media dev, p.sdhSize⟩, p.partEnd dev, reads', divisors⟩ ∧
      (Detection.Safe ⟨p.toHeaders, 0, reads', divisors⟩ ↔
        Detection.Safe ⟨p.toHeaders, 0, reads, divisors⟩) ∧ Whole dev 0 p.size ∧
      (¬ (p.first dev).IsPartHeader → Whole dev p.size p.size)) ∨
    (∃ s', readPartHeader dev p.size ⟨p.toHeaders, 0, reads, divisors⟩ = .error .error s' ∧
      (s'.Safe ↔ Detection.Safe ⟨p.toHeaders, 0, reads, divisors⟩) ∧ ¬ p.PartFound dev) := by
  have hle : ∀ off, (pread dev off p.size).length ≤ sadumpDefaultBlockSize := fun off =>
    (length_pread_le dev off p.size).trans hb
  have hlt : p.size + p.size < 2 ^ 63 := by
    have : p.size ≤ 4096 := hb
    omega
  unfold readPartHeader readSph readSmh
  by_cases h0 : Whole dev 0 p.size
  swap
  · refine .inr ⟨_, bind_error (readDevice_short (by omega) h0), ?_, fun hf => h0 hf.first⟩
    simp only [safe_read, hle, true_and]
    exact safe_congr
  rw [bind_ok (readDevice_whole (by omega) h0), get_bind]
  by_cases hpart : (p.sph.fill (pread dev 0 p.size)).IsPartHeader
  · left
    have hfirst : (p.first dev).IsPartHeader := hpart
    simp only [hpart, ↓reduceIte, pure_run, Place.part, Place.media, Place.partEnd, Place.format, hfirst,
      Nat.zero_add]
    exact ⟨_, rfl, by simp only [safe_read, hb, true_and], h0, fun h => absurd trivial h⟩
  · have hfirst : ¬ (p.first dev).IsPartHeader := hpart
    simp only [hpart, ↓reduceIte, modify_bind]
    rw [bind_ok (readDevice_whole (by omega) h0)]
    by_cases h1 : Whole dev p.size p.size
    swap
    · refine .inr ⟨_, bind_error (readDevice_short (by omega) (by rwa [Nat.zero_add])), ?_,
        fun hf => h1 (hf.second hfirst)⟩
      simp only [safe_read, hle, hb, true_and]
      exact safe_congr
    · left
      rw [Nat.zero_add, bind_ok (readDevice_whole hlt h1), get_bind]
      simp only [pure_run, Place.part, Place.media, Place.partEnd, Place.format, hfirst, ↓reduceIte]
      exact ⟨_, rfl, by simp only [safe_read, hb, true_and], h0, fun _ => h1⟩

variable (alloc) in
/-- What the disk set header leaves behind: a place for it, and the offset of the dump header. -/
theorem readDiskSetHeader_spec (hb : p.size ≤ sadumpDefaultBlockSize)
    (hformat : p.format dev = .diskset) (sh smh : Buffer) :
    (∃ reads', readDiskSetHeader dev alloc p.size
        ⟨⟨p.part dev, sh, smh, p.sdhSize⟩, p.size, reads, divisors⟩ =
        .ok () ⟨⟨p.part dev, sh, smh, p.room dev⟩, p.dumpOffset dev, reads', divisors⟩ ∧
      (Detection.Safe ⟨p.toHeaders, 0, reads', divisors⟩ ↔
        (pread dev p.size (p.setSize dev)).length ≤ p.room dev ∧
        Detection.Safe ⟨p.toHeaders, 0, reads, divisors⟩) ∧
      p.SetFound dev alloc ∧ Whole dev p.size (p.setSize dev)) ∨
    (∃ e s', readDiskSetHeader dev alloc p.size
        ⟨⟨p.part dev, sh, smh, p.sdhSize⟩, p.size, reads, divisors⟩ = .error e s' ∧
      (s'.Safe ↔
        (p.SetFound dev alloc → (pread dev p.size (p.setSize dev)).length ≤ p.room dev) ∧
        Detection.Safe ⟨p.toHeaders, 0, reads, divisors⟩) ∧
      ¬ (p.SetFound dev alloc ∧ Whole dev p.size (p.setSize dev))) := by
  have hset := setSize_lt dev hb
  have hlt : p.size ≤ 4096 := hb
  have hoff : p.dumpOffset dev = p.size + p.setSize dev := by simp [Place.dumpOffset, hformat]
  have hskip {s' : Detection} (hn : ¬ p.SetFound dev alloc)
      (hs : s'.Safe ↔ Detection.Safe ⟨p.toHeaders, 0, reads, divisors⟩) : s'.Safe ↔
        (p.SetFound dev alloc → (pread dev p.size (p.setSize dev)).length ≤ p.room dev) ∧
        Detection.Safe ⟨p.toHeaders, 0, reads, divisors⟩ := by
    rw [hs]
    exact ⟨fun h => ⟨fun hf => absurd hf hn, h⟩, And.right⟩
  unfold readDiskSetHeader
  simp only [get_bind]
  by_cases hone : (p.part dev).setDiskSet = 1
  swap
  · have hn : ¬ p.SetFound dev alloc := fun hf => hone hf.firstDisk
    rw [if_pos hone, throw_bind]
    exact .inr ⟨.false, _, rfl, hskip hn safe_congr, fun h => hn h.1⟩
  rw [if_neg (not_not.2 hone)]
  by_cases h4 : Whole dev p.size 4
  swap
  · have hn : ¬ p.SetFound dev alloc := fun hf => h4 hf.blocks
    rw [bind_error (readU32_short (by omega) h4)]
    refine .inr ⟨.false, _, rfl, hskip hn ?_, fun h => hn h.1⟩
    rw [safe_read, and_iff_right (length_pread_le _ _ _)]
    exact safe_congr
  rw [bind_ok (readU32_whole (by omega) h4)]
  have hblocks : leNat (pread dev p.size 4) * p.size = p.setSize dev := rfl
  rw [hblocks]
  -- with room for the header it is read, and the read fits if it is no longer than the buffer
  have hread (room : Nat) (hroom : p.room dev = room) (hf : p.SetFound dev alloc) :
      (∃ reads', (readDevice dev room (p.setSize dev) (fun _ h => h) .error >>= fun _ => pure ())
          ⟨⟨p.part dev, sh, smh, room⟩, p.size, ⟨4, 4⟩ :: reads, divisors⟩ =
          .ok () ⟨⟨p.part dev, sh, smh, p.room dev⟩, p.dumpOffset dev, reads', divisors⟩ ∧
        (Detection.Safe ⟨p.toHeaders, 0, reads', divisors⟩ ↔
          (pread dev p.size (p.setSize dev)).length ≤ p.room dev ∧
          Detection.Safe ⟨p.toHeaders, 0, reads, divisors⟩) ∧
        p.SetFound dev alloc ∧ Whole dev p.size (p.setSize dev)) ∨
      (∃ e s', (readDevice dev room (p.setSize dev) (fun _ h => h) .error >>= fun _ => pure ())
          ⟨⟨p.part dev, sh, smh, room⟩, p.size, ⟨4, 4⟩ :: reads, divisors⟩ = .error e s' ∧
        (s'.Safe ↔
          (p.SetFound dev alloc → (pread dev p.size (p.setSize dev)).length ≤ p.room dev) ∧
          Detection.Safe ⟨p.toHeaders, 0, reads, divisors⟩) ∧
        ¬ (p.SetFound dev alloc ∧ Whole dev p.size (p.setSize dev))) := by
    subst hroom
    by_cases hw : Whole dev p.size (p.setSize dev)
    · left
      rw [bind_ok (readDevice_whole (by omega) hw), hoff]
      refine ⟨_, rfl, ?_, hf, hw⟩
      have hlen : (pread dev p.size (p.setSize dev)).length = p.setSize dev := hw
      rw [safe_read, safe_read, hlen, and_iff_right (Nat.le_refl 4)]
    · right
      rw [bind_error (readDevice_short (by omega) hw)]
      refine ⟨_, _, rfl, ?_, fun h => hw h.2⟩
      rw [safe_read, safe_read, and_iff_right (Nat.le_refl 4)]
      exact and_congr ⟨fun h _ => h, fun h => h hf⟩ safe_congr
  by_cases hlarge : p.size < p.setSize dev
  · rw [if_pos hlarge]
    by_cases halloc : alloc (p.setSize dev) = true
    · rw [if_pos halloc]
      exact hread _ (if_pos ⟨hformat, hlarge⟩) ⟨hformat, hone, h4, fun _ => halloc⟩
    · rw [if_neg halloc]
      have hn : ¬ p.SetFound dev alloc := fun hf => halloc (hf.memory hlarge)
      refine .inr ⟨.false, _, rfl, hskip hn ?_, fun h => hn h.1⟩
      rw [safe_read, and_iff_right (Nat.le_refl 4)]
      exact safe_congr
  · rw [if_neg hlarge]
    exact hread _ (if_neg fun h => hlarge h.2) ⟨hformat, hone, h4, fun h => absurd h hlarge⟩

variable (dev alloc reads divisors) in
/-- The disk set header is read in a disk set only. -/
theorem readSetHeader_spec (hb : p.size ≤ sadumpDefaultBlockSize) (hf : p.PartFound dev)
    (sh smh : Buffer) :
    (∃ reads', readSetHeader dev alloc (p.format dev) p.size
        ⟨⟨p.part dev, sh, smh, p.sdhSize⟩, p.partEnd dev, reads, divisors⟩ =
        .ok () ⟨⟨p.part dev, sh, smh, p.room dev⟩, p.dumpOffset dev, reads', divisors⟩ ∧
      (Detection.Safe ⟨p.toHeaders, 0, reads', divisors⟩ ↔
        p.Fits dev alloc ∧ Detection.Safe ⟨p.toHeaders, 0, reads, divisors⟩) ∧
      (p.format dev = .diskset → p.SetFound dev alloc ∧ Whole dev p.size (p.setSize dev))) ∨
    (∃ e s', readSetHeader dev alloc (p.format dev) p.size
        ⟨⟨p.part dev, sh, smh, p.sdhSize⟩, p.partEnd dev, reads, divisors⟩ = .error e s' ∧
      (s'.Safe ↔ p.Fits dev alloc ∧ Detection.Safe ⟨p.toHeaders, 0, reads, divisors⟩) ∧
      ¬ (p.format dev = .diskset → p.SetFound dev alloc ∧ Whole dev p.size (p.setSize dev))) := by
  have hfits : p.Fits dev alloc ↔
      (p.SetFound dev alloc → (pread dev p.size (p.setSize dev)).length ≤ p.room dev) :=
    ⟨fun h => h.set hf, fun h => ⟨hb, fun _ => h⟩⟩
  unfold readSetHeader
  by_cases hset : p.format dev = .diskset
  · have hend : p.partEnd dev = p.size := by
      unfold Place.partEnd
      unfold Place.format at hset
      split at hset
      · exact if_pos ‹_›
      · cases hset
    rw [if_pos hset, hend, hfits, forall_prop_of_true hset]
    rcases readDiskSetHeader_spec alloc hb hset sh smh with
      ⟨reads', he, hs, hfound, hw⟩ | ⟨e, s', he, hs, hn⟩
    · refine .inl ⟨reads', he, ?_, hfound, hw⟩
      rw [hs, forall_prop_of_true hfound]
    · exact .inr ⟨e, s', he, hs, hn⟩
  · have hroom : p.room dev = p.sdhSize := if_neg fun h => hset h.1
    have hend : p.partEnd dev = p.dumpOffset dev := by
      unfold Place.partEnd Place.dumpOffset Place.format
      unfold Place.format at hset
      split at hset
      · split at hset <;> simp_all
      · simp [*]
    rw [if_neg hset, pure_run, hroom, hend, hfits]
    refine .inl ⟨_, rfl, ?_, fun h => absurd h hset⟩
    exact ⟨fun h => ⟨fun hs => absurd hs.diskset hset, h⟩, And.right⟩

variable (dev alloc reads divisors) in
theorem readDumpHeader_spec (hb : p.size ≤ sadumpDefaultBlockSize) :
    (∃ reads', readDumpHeader dev (p.format dev) p.size
        ⟨⟨p.part dev, p.sh, p.media dev, p.room dev⟩, p.dumpOffset dev, reads, divisors⟩ =
        .ok () ⟨p.found dev, p.dumpOffset dev + p.size, reads', divisors⟩ ∧
      (Detection.Safe ⟨p.toHeaders, 0, reads', divisors⟩ ↔
        Detection.Safe ⟨p.toHeaders, 0, reads, divisors⟩) ∧
      Whole dev (p.dumpOffset dev) p.size ∧ (p.dump dev).signature.take 7 = sadumpSignature ∧
      (p.format dev = .mediaBackup → (p.found dev).MediaOk)) ∨
    (∃ e s', readDumpHeader dev (p.format dev) p.size
        ⟨⟨p.part dev, p.sh, p.media dev, p.room dev⟩, p.dumpOffset dev, reads, divisors⟩ =
        .error e s' ∧
      (s'.Safe ↔ Detection.Safe ⟨p.toHeaders, 0, reads, divisors⟩) ∧
      ¬ p.Located dev alloc) := by
  have hset := setSize_lt dev hb
  have hlt : p.size ≤ 4096 := hb
  have hoff : p.dumpOffset dev + p.size < 2 ^ 62 := by
    unfold Place.dumpOffset
    split <;> omega
  unfold readDumpHeader readSh
  by_cases hw : Whole dev (p.dumpOffset dev) p.size
  swap
  · rw [bind_error (readDevice_short (by omega) hw)]
    refine .inr ⟨_, _, rfl, ?_, fun h => hw h.whole⟩
    rw [safe_read, and_iff_right ((length_pread_le _ _ _).trans hb)]
    exact safe_congr
  have hread : readDevice dev sadumpDefaultBlockSize p.size
      (fun data h => { h with sh := h.sh.fill data }) .false
      ⟨⟨p.part dev, p.sh, p.media dev, p.room dev⟩, p.dumpOffset dev, reads, divisors⟩ =
      .ok (pread dev (p.dumpOffset dev) p.size) ⟨p.found dev, p.dumpOffset dev + p.size,
        ⟨sadumpDefaultBlockSize, p.size⟩ :: reads, divisors⟩ := readDevice_whole (by omega) hw
  have hsafe : Detection.Safe ⟨p.toHeaders, 0, ⟨sadumpDefaultBlockSize, p.size⟩ :: reads, divisors⟩ ↔
      Detection.Safe ⟨p.toHeaders, 0, reads, divisors⟩ := by
    rw [safe_read, and_iff_right hb]
  simp only [bind_ok hread, get_bind]
  by_cases hsig : (p.found dev).sh.signature.take 7 = sadumpSignature
  swap
  · rw [if_pos hsig, throw_bind]
    exact .inr ⟨_, _, rfl, hsafe, fun h => hsig h.signature⟩
  rw [if_neg (not_not.2 hsig)]
  by_cases hmedia : p.format dev = .mediaBackup ∧ ¬ (p.found dev).MediaOk
  · simp only [if_pos hmedia]
    exact .inr ⟨_, _, rfl, hsafe, fun h => hmedia.2 (h.media hmedia.1)⟩
  · simp only [if_neg hmedia]
    refine .inl ⟨_, rfl, hsafe, hw, hsig, fun h => ?_⟩
    by_contra hn
    exact hmedia ⟨h, hn⟩

variable (dev reads divisors) in
/-- The sub header is read if there is one, and its size is divided by the number of CPUs. -/
theorem readSmramCpuStateSize_spec {h : Headers} {off : Nat} (hoff : off < 2 ^ 62) (size : Nat) :
    (∃ n s', readSmramCpuStateSize dev size ⟨h, off, reads, divisors⟩ = .ok n s' ∧ s'.sh = h.sh ∧
      (s'.Safe ↔ (0 < h.sh.subHdrSize → h.sh.nrCpus ≠ 0) ∧
        Detection.Safe ⟨h, off, reads, divisors⟩) ∧ (0 < h.sh.subHdrSize → Whole dev off 4)) ∨
    (∃ e s', readSmramCpuStateSize dev size ⟨h, off, reads, divisors⟩ = .error e s' ∧
      (s'.Safe ↔ Detection.Safe ⟨h, off, reads, divisors⟩) ∧
      ¬ (0 < h.sh.subHdrSize → Whole dev off 4)) := by
  unfold readSmramCpuStateSize
  rw [get_bind]
  by_cases hsub : 0 < h.sh.subHdrSize
  swap
  · rw [if_neg hsub, pure_run]
    exact .inl ⟨_, _, rfl, rfl, by simp [hsub], fun h => absurd h hsub⟩
  rw [if_pos hsub]
  by_cases h4 : Whole dev off 4
  · rw [bind_ok (readU32_whole hoff h4), modify_bind, pure_run]
    refine .inl ⟨_, _, rfl, rfl, ?_, fun _ => h4⟩
    rw [safe_divisor, safe_congr, safe_read, and_iff_right (Nat.le_refl 4), forall_prop_of_true hsub]
  · rw [bind_error (readU32_short (by omega) h4)]
    refine .inr ⟨_, _, rfl, ?_, fun h => h4 (h hsub)⟩
    rw [safe_read, and_iff_right (length_pread_le _ _ _)]

/-- The rest of the dump header: it is kept when it counts blocks in both bitmaps. -/
theorem readSubHeader_spec {h : Headers} {off : Nat} (hoff : off < 2 ^ 62) (flag : FormatType)
    (size : Nat) :
    (∃ k s', readSubHeader dev flag size ⟨h, off, reads, divisors⟩ = .ok k s' ∧
      k.blockSize = size ∧ s'.sh = h.sh ∧
      (s'.Safe ↔ (0 < h.sh.subHdrSize → h.sh.nrCpus ≠ 0) ∧
        Detection.Safe ⟨h, off, reads, divisors⟩) ∧
      (0 < h.sh.subHdrSize → Whole dev off 4) ∧ h.sh.bitmapBlocks ≠ 0 ∧
      h.sh.dumpableBitmapBlocks ≠ 0) ∨
    (∃ e s', readSubHeader dev flag size ⟨h, off, reads, divisors⟩ = .error e s' ∧
      (s'.Safe ↔ ((0 < h.sh.subHdrSize → Whole dev off 4) → 0 < h.sh.subHdrSize → h.sh.nrCpus ≠ 0) ∧
        Detection.Safe ⟨h, off, reads, divisors⟩) ∧
      ¬ ((0 < h.sh.subHdrSize → Whole dev off 4) ∧ h.sh.bitmapBlocks ≠ 0 ∧
        h.sh.dumpableBitmapBlocks ≠ 0)) := by
  unfold readSubHeader
  rw [get_bind]
  rcases readSmramCpuStateSize_spec dev reads divisors hoff size (h := h) with ⟨n, s', he, hsh, hsafe, hsub⟩ | ⟨e, s', he, hsafe, hsub⟩
  swap
  · rw [bind_error he]
    refine .inr ⟨e, s', rfl, ?_, fun h => hsub h.1⟩
    rw [hsafe]
    exact ⟨fun h => ⟨fun hs => absurd hs hsub, h⟩, And.right⟩
  have hsafe' : s'.Safe ↔
      ((0 < h.sh.subHdrSize → Whole dev off 4) → 0 < h.sh.subHdrSize → h.sh.nrCpus ≠ 0) ∧
        Detection.Safe ⟨h, off, reads, divisors⟩ := by
    rw [hsafe, forall_prop_of_true hsub]
  rw [bind_ok he, get_bind, hsh]
  by_cases hbm : h.sh.bitmapBlocks = 0
  · rw [if_pos hbm, throw_bind]
    exact .inr ⟨_, _, rfl, hsafe', fun h => h.2.1 hbm⟩
  by_cases hdm : h.sh.dumpableBitmapBlocks = 0
  · simp only [if_neg hbm, if_pos hdm, throw_bind]
    exact .inr ⟨_, _, rfl, hsafe', fun h => h.2.2 hdm⟩
  simp only [if_neg hbm, if_neg hdm, pure_run]
  exact .inl ⟨_, _, rfl, rfl, hsh, hsafe, hsub, hbm, hdm⟩

/-! ## One search -/

/-- The search is good if it was safe and the header it kept lies in a block of its own size. -/
def Good : EStateM.Result Failure Detection (Option Kept) → Prop
  | .ok (some k) s => s.Safe ∧ s.sh.blockSize = k.blockSize ∧ sizeofSadumpHeader ≤ k.blockSize
  | .ok none s => s.Safe
  | .error _ s => s.Safe

/-- A search that stops before the block size is compared. -/
theorem unlocated_spec (hn : ¬ p.Located dev alloc) :
    p.next dev alloc = none ∧ p.Sound dev alloc := by
  constructor
  · exact if_neg fun h => hn h.1
  · exact ⟨fun h => absurd h.located hn, fun h => absurd h.located hn⟩

theorem unfound_fits (hb : p.size ≤ sadumpDefaultBlockSize) (hn : ¬ p.PartFound dev) :
    p.Fits dev alloc := ⟨hb, fun h => absurd h hn⟩

/-- Where one search from a place leads: to the next place, or to the end. -/
def Leads (dev : ByteFile) (alloc : Alloc) (p : Place) (s : Detection) : Prop :=
  (∃ q s', p.next dev alloc = some q ∧ s'.toHeaders = q.toHeaders ∧
    (∀ fuel, readSadumpHeader dev alloc (fuel + 1) p.size s =
      readSadumpHeader dev alloc fuel q.size s') ∧
    (s'.Safe ↔ p.Fits dev alloc ∧ s.Safe)) ∨
  (∃ r, p.next dev alloc = none ∧
    (∀ fuel, readSadumpHeader dev alloc (fuel + 1) p.size s = some r) ∧
    (Good r ↔ (p.Fits dev alloc ∧ s.Safe) ∧ p.Sound dev alloc))

theorem leads_of_stop {s s' : Detection} {e : Failure} (hn : ¬ p.Located dev alloc)
    (hd : detect dev alloc p.size { s with offset := 0 } = .error e s' ∨
      detect dev alloc p.size { s with offset := 0 } = .ok .unknown s')
    (hs : s'.Safe ↔ p.Fits dev alloc ∧ s.Safe) : Leads dev alloc p s := by
  have ⟨hnext, hsound⟩ := unlocated_spec hn
  rcases hd with hd | hd
  · refine .inr ⟨.error e s', hnext, fun fuel => by simp only [readSadumpHeader, hd], ?_⟩
    rw [and_iff_left hsound]
    exact hs
  · refine .inr ⟨.ok none s', hnext, fun fuel => by simp only [readSadumpHeader, hd], ?_⟩
    rw [and_iff_left hsound]
    exact hs

variable (dev alloc reads divisors) in
/-- **One search**: it starts again at the next place, or it stops. -/
theorem search_spec (hb : p.size ≤ sadumpDefaultBlockSize) :
    Leads dev alloc p ⟨p.toHeaders, 0, reads, divisors⟩ := by
  have hset := setSize_lt dev hb
  have hlt : p.size ≤ 4096 := hb
  have hoff : p.dumpOffset dev + p.size < 2 ^ 62 := by
    unfold Place.dumpOffset
    split <;> omega
  rcases readPartHeader_spec dev reads divisors hb with
    ⟨reads₁, he, hs₁, h0, h1⟩ | ⟨s', he, hs₁, hn⟩
  swap
  · refine leads_of_stop (fun h => hn h.partFound) (.inl (bind_error he)) ?_
    rw [hs₁, and_iff_right (unfound_fits hb hn)]
  have hstop {s' : Detection} (hn : ¬ p.PartFound dev)
      (hs : s'.Safe ↔ Detection.Safe ⟨p.toHeaders, 0, reads₁, divisors⟩) :
      s'.Safe ↔ p.Fits dev alloc ∧ Detection.Safe ⟨p.toHeaders, 0, reads, divisors⟩ := by
    rw [hs, hs₁, and_iff_right (unfound_fits hb hn)]
  by_cases hpart : (p.part dev).IsPartHeader
  swap
  · have hn : ¬ p.PartFound dev := fun h => hpart h.part
    rw [if_neg hpart] at he
    exact leads_of_stop (e := .error) (fun h => hn h.partFound) (.inr (bind_ok he)) (hstop hn safe_congr)
  rw [if_pos hpart] at he
  by_cases hmagic : verifyMagicNumber (p.part dev) = true
  swap
  · have hn : ¬ p.PartFound dev := fun h => hmagic h.magic
    have hd : detect dev alloc p.size ⟨p.toHeaders, 0, reads, divisors⟩ = .error .false
        ⟨⟨p.part dev, p.sh, p.media dev, p.sdhSize⟩, p.partEnd dev, reads₁, divisors⟩ := by
      refine (bind_ok he).trans ?_
      simp only [get_bind]
      rw [if_pos hmagic, throw_bind]
    exact leads_of_stop (fun h => hn h.partFound) (.inl hd) (hstop hn safe_congr)
  rcases readSetHeader_spec dev alloc reads₁ divisors hb ⟨h0, h1, hpart, hmagic⟩ p.sh (p.media dev)
    with ⟨reads₂, he₂, hs₂, hset⟩ | ⟨e, s', he₂, hs₂, hn⟩
  swap
  · refine leads_of_stop (e := e) (fun h => hn h.set) (.inl ((bind_ok he).trans ?_)) (by rw [hs₂, hs₁])
    simp only [get_bind]
    rw [if_neg (not_not.2 hmagic), bind_error he₂]
  rcases readDumpHeader_spec dev alloc reads₂ divisors hb with
    ⟨reads₃, he₃, hs₃, hw, hsig, hmedia⟩ | ⟨e, s', he₃, hs₃, hn⟩
  swap
  · refine leads_of_stop (e := e) hn (.inl ((bind_ok he).trans ?_)) (by rw [hs₃, hs₂, hs₁])
    simp only [get_bind]
    rw [if_neg (not_not.2 hmagic), bind_ok he₂, bind_error he₃]
  have hlocated : p.Located dev alloc := ⟨⟨h0, h1, hpart, hmagic⟩, hset, hw, hsig, hmedia⟩
  have hsafe : Detection.Safe ⟨p.toHeaders, 0, reads₃, divisors⟩ ↔
      p.Fits dev alloc ∧ Detection.Safe ⟨p.toHeaders, 0, reads, divisors⟩ := by
    rw [hs₃, hs₂, hs₁]
  -- the dump header is in its buffer: its block size decides
  have hd : detect dev alloc p.size ⟨p.toHeaders, 0, reads, divisors⟩ =
      (if (p.found dev).sh.blockSize ≠ p.size then pure (.restart (p.found dev).sh.blockSize)
        else .kept <$> readSubHeader dev (p.format dev) p.size : Detect Found)
        ⟨p.found dev, p.dumpOffset dev + p.size, reads₃, divisors⟩ := by
    refine (bind_ok he).trans ?_
    simp only [get_bind]
    rw [if_neg (not_not.2 hmagic), bind_ok he₂, bind_ok he₃, get_bind]
    split <;> rfl
  by_cases hagree : (p.found dev).sh.blockSize = p.size
  swap
  · rw [if_pos hagree, pure_run] at hd
    exact .inl ⟨⟨p.found dev, (p.found dev).sh.blockSize⟩,
      ⟨p.found dev, p.dumpOffset dev + p.size, reads₃, divisors⟩, if_pos ⟨hlocated, hagree⟩, rfl,
      fun fuel => by simp only [readSadumpHeader, hd], hsafe⟩
  rw [if_neg (not_not.2 hagree)] at hd
  have hnext : p.next dev alloc = none := if_neg fun h => h.2 hagree
  have hcpus : p.Agrees dev alloc ↔
      (0 < (p.dump dev).subHdrSize → Whole dev (p.dumpOffset dev + p.size) 4) :=
    ⟨Place.Agrees.smram, fun h => ⟨hlocated, hagree, h⟩⟩
  rcases readSubHeader_spec (h := p.found dev) hoff (p.format dev) p.size with
    ⟨k, s', he₄, hk, hsh, hs₄, hsub, hbm, hdm⟩ | ⟨e, s', he₄, hs₄, hn⟩
  · rw [map_ok he₄] at hd
    refine .inr ⟨.ok (some k) s', hnext, fun fuel => by simp only [readSadumpHeader, hd], ?_⟩
    have hs : s'.Safe ↔ (0 < (p.dump dev).subHdrSize → (p.dump dev).nrCpus ≠ 0) ∧
        p.Fits dev alloc ∧ Detection.Safe ⟨p.toHeaders, 0, reads, divisors⟩ := by
      rw [← hsafe]
      exact hs₄
    have hag : p.Agrees dev alloc := hcpus.2 hsub
    simp only [Good, hs, hsh, hk]
    constructor
    · rintro ⟨⟨hc, hfs⟩, -, hcov⟩
      exact ⟨hfs, fun _ => hc, fun _ _ _ => hcov⟩
    · rintro ⟨hfs, hsound⟩
      exact ⟨⟨hsound.cpus hag, hfs⟩, hagree, hsound.covers hag hbm hdm⟩
  · rw [map_error he₄] at hd
    refine .inr ⟨.error e s', hnext, fun fuel => by simp only [readSadumpHeader, hd], ?_⟩
    have hs : s'.Safe ↔
        (p.Agrees dev alloc → 0 < (p.dump dev).subHdrSize → (p.dump dev).nrCpus ≠ 0) ∧
        p.Fits dev alloc ∧ Detection.Safe ⟨p.toHeaders, 0, reads, divisors⟩ := by
      rw [← hsafe, hcpus]
      exact hs₄
    simp only [Good, hs]
    constructor
    · rintro ⟨hc, hfs⟩
      exact ⟨hfs, hc, fun hag hbm hdm => absurd ⟨hcpus.1 hag, hbm, hdm⟩ hn⟩
    · rintro ⟨hfs, hsound⟩
      exact ⟨hsound.cpus, hfs⟩

end stages

/-! ## A read that was too long -/

/-- The state a computation ends in. -/
def after {α : Type} : EStateM.Result Failure Detection α → Detection
  | .ok _ s => s
  | .error _ s => s

/-- What was not safe before is not safe afterwards. -/
def Persists {α : Type} (x : Detect α) : Prop := ∀ s, (after (x s)).Safe → s.Safe

section persists

variable {α β : Type} {x : Detect α} {f : α → Detect β}

theorem safe_of_bind {s : Detection} (hf : ∀ a, Persists (f a)) (h : (after ((x >>= f) s)).Safe) :
    (after (x s)).Safe := by
  cases he : x s with
  | ok a s' =>
    rw [bind_ok he] at h
    exact hf a s' h
  | error e s' =>
    rw [bind_error he] at h
    exact h

theorem Persists.bind (hx : Persists x) (hf : ∀ a, Persists (f a)) : Persists (x >>= f) :=
  fun s h => hx s (safe_of_bind hf h)

theorem persists_pure (a : α) : Persists (pure a : Detect α) := fun _ h => h

theorem persists_throw (e : Failure) : Persists (throw e : Detect α) := fun _ h => h

theorem persists_get : Persists (get : Detect Detection) := fun _ h => h

theorem persists_modify {g : Detection → Detection} (h : ∀ s, (g s).Safe → s.Safe) :
    Persists (modify g : Detect PUnit) := h

theorem persists_ite {c : Prop} [Decidable c] {y : Detect α} (hx : Persists x) (hy : Persists y) :
    Persists (if c then x else y) := by
  split
  · exact hx
  · exact hy

theorem safe_readDevice (dev : ByteFile) (size bytes : Nat)
    (store : List UInt8 → Headers → Headers) (ret : Failure) (s : Detection) :
    (after (readDevice dev size bytes store ret s)).Safe ↔
      (if s.offset < 2 ^ 63 then pread dev s.offset bytes else []).length ≤ size ∧ s.Safe := by
  unfold readDevice
  dsimp only
  generalize (if s.offset < 2 ^ 63 then pread dev s.offset bytes else []) = data
  split
  · exact safe_read data.length
  · exact safe_read data.length

theorem persists_readDevice (dev : ByteFile) (size bytes : Nat)
    (store : List UInt8 → Headers → Headers) (ret : Failure) :
    Persists (readDevice dev size bytes store ret) := by
  intro s h
  exact ((safe_readDevice dev size bytes store ret s).1 h).2

theorem persists_readU32 (dev : ByteFile) : Persists (readU32 dev) :=
  .bind (persists_readDevice dev _ _ _ _) fun _ =>
    .bind (persists_modify fun _ h => h) fun _ => persists_pure _

/-- The search begins with a block for the partition header. -/
theorem safe_of_readPartHeader {dev : ByteFile} {size : Nat} {s : Detection}
    (h : (after (readPartHeader dev size s)).Safe) : (after (readSph dev size .error s)).Safe := by
  refine safe_of_bind (fun _ => .bind persists_get fun s => ?_) h
  refine persists_ite (persists_pure _) (.bind (persists_modify fun _ h => h) fun _ => ?_)
  refine .bind (persists_readDevice _ _ _ _ _) fun _ => ?_
  exact .bind (persists_readDevice _ _ _ _ _) fun _ => .bind persists_get fun _ => persists_pure _

theorem persists_readSetHeader (dev : ByteFile) (alloc : Alloc) (flag : FormatType) (size : Nat) :
    Persists (readSetHeader dev alloc flag size) := by
  have hread (n : Nat) : Persists (do
      let s ← get
      let _ ← readDevice dev s.sdhSize n (fun _ h => h) .error) :=
    .bind persists_get fun _ => .bind (persists_readDevice _ _ _ _ _) fun _ => persists_pure _
  have hblocks : Persists (do
      let headerBlocks ← readU32 dev
      let headerSize := headerBlocks * size
      if size < headerSize then
        if alloc headerSize then modify fun s => { s with sdhSize := headerSize }
        else throw .false
      let s ← get
      let _ ← readDevice dev s.sdhSize headerSize (fun _ h => h) .error) :=
    .bind (persists_readU32 dev) fun _ => persists_ite
      (persists_ite (.bind (persists_modify fun _ h => h) fun _ => hread _)
        (.bind (persists_throw _) fun _ => hread _)) (hread _)
  refine persists_ite ?_ (persists_pure _)
  exact .bind persists_get fun _ => persists_ite (.bind (persists_throw _) fun _ => hblocks) hblocks

theorem persists_readDumpHeader (dev : ByteFile) (flag : FormatType) (size : Nat) :
    Persists (readDumpHeader dev flag size) := by
  refine .bind (persists_readDevice _ _ _ _ _) fun _ => .bind persists_get fun s => ?_
  refine persists_ite (.bind (persists_throw _) fun _ => ?_) ?_
  · exact persists_ite (persists_throw _) (persists_pure _)
  · exact persists_ite (persists_throw _) (persists_pure _)

theorem persists_readSubHeader (dev : ByteFile) (flag : FormatType) (size : Nat) :
    Persists (readSubHeader dev flag size) := by
  refine .bind persists_get fun _ => .bind ?_ fun _ => .bind persists_get fun s => ?_
  · refine .bind persists_get fun s => persists_ite ?_ (persists_pure _)
    refine .bind (persists_readU32 dev) fun _ => .bind (persists_modify fun s h => ?_) fun _ =>
      persists_pure _
    exact ((safe_divisor _).1 h).2
  · refine persists_ite (.bind (persists_throw _) fun _ => ?_) ?_
    · exact persists_ite (.bind (persists_throw _) fun _ => persists_pure _) (persists_pure _)
    · exact persists_ite (.bind (persists_throw _) fun _ => persists_pure _) (persists_pure _)

theorem safe_of_detect {dev : ByteFile} {alloc : Alloc} {size : Nat} {s : Detection}
    (h : (after (detect dev alloc size s)).Safe) : (after (readSph dev size .error s)).Safe := by
  refine safe_of_readPartHeader (safe_of_bind (fun o => ?_) h)
  cases o with
  | none => exact persists_pure _
  | some flag =>
    have hrest : Persists (do
        readSetHeader dev alloc flag size
        readDumpHeader dev flag size
        let s ← get
        if s.sh.blockSize ≠ size then return Found.restart s.sh.blockSize
        return Found.kept (← readSubHeader dev flag size)) := by
      refine .bind (persists_readSetHeader dev alloc flag size) fun _ => ?_
      refine .bind (persists_readDumpHeader dev flag size) fun _ => .bind persists_get fun s => ?_
      exact persists_ite (persists_pure _)
        (.bind (persists_readSubHeader dev flag size) fun _ => persists_pure _)
    exact .bind persists_get fun s => persists_ite (.bind (persists_throw _) fun _ => hrest) hrest

theorem Good.safe {r : EStateM.Result Failure Detection (Option Kept)} (h : Good r) :
    (after r).Safe := by
  cases r with
  | ok k s =>
    cases k with
    | none => exact h
    | some k => exact h.1
  | error e s => exact h

/-- The whole search was not safe if it was not safe somewhere. -/
theorem safe_of_run {dev : ByteFile} {alloc : Alloc} {fuel size : Nat} {s : Detection}
    {r : EStateM.Result Failure Detection (Option Kept)}
    (h : readSadumpHeader dev alloc fuel size s = some r) (hr : (after r).Safe) :
    (after (detect dev alloc size { s with offset := 0 })).Safe := by
  induction fuel generalizing size s with
  | zero => cases h
  | succ fuel ih =>
    unfold readSadumpHeader at h
    split at h
    · rename_i announced s' hd
      rw [hd]
      exact persists_readDevice _ _ _ _ _ { s' with offset := 0 } (safe_of_detect (ih h))
    · rename_i hd
      cases h
      rwa [hd]
    · rename_i hd
      cases h
      rwa [hd]
    · rename_i hd
      cases h
      rwa [hd]

/-- **A block that is larger than the buffers** is read into them. -/
theorem not_good_of_large {dev : ByteFile} {alloc : Alloc} {fuel size : Nat} {s : Detection}
    {r : EStateM.Result Failure Detection (Option Kept)} (hsize : sadumpDefaultBlockSize < size)
    (hdev : sadumpDefaultBlockSize < dev.length)
    (h : readSadumpHeader dev alloc fuel size s = some r) : ¬ Good r := by
  intro hg
  have hs := safe_of_detect (safe_of_run h hg.safe)
  have hlen : (pread dev 0 size).length ≤ sadumpDefaultBlockSize :=
    ((safe_readDevice _ _ _ _ _ _).1 hs).1
  rw [length_pread] at hlen
  omega

end persists

/-! ## The whole search -/

section run

variable {dev : ByteFile} {alloc : Alloc} {p q : Place} {s : Detection}

variable (dev alloc) in
theorem leads_of_headers (hb : p.size ≤ sadumpDefaultBlockSize) (hs : s.toHeaders = p.toHeaders) :
    Leads dev alloc p s := by
  obtain ⟨h, off, reads, divisors⟩ := s
  obtain rfl : h = p.toHeaders := hs
  exact search_spec dev alloc reads divisors hb

/-- A device on which the first search found a dump header is larger than a buffer. -/
theorem length_of_next (h : p.next dev alloc = some q) (hp : p.size = sadumpDefaultBlockSize) :
    sadumpDefaultBlockSize < dev.length := by
  have hloc : p.Located dev alloc := by
    by_contra hn
    rw [(unlocated_spec hn).1] at h
    cases h
  have hw : (pread dev (p.dumpOffset dev) p.size).length = p.size := hloc.whole
  have hoff : p.size ≤ p.dumpOffset dev := by
    unfold Place.dumpOffset
    split <;> omega
  rw [length_pread] at hw
  have hpos : sadumpDefaultBlockSize = 4096 := rfl
  omega

theorem sound_of_next (h : p.next dev alloc = some q) : p.Sound dev alloc := by
  have hn : ¬ p.Agrees dev alloc := by
    intro hag
    rw [Place.next, if_neg fun h => h.2 hag.agree] at h
    cases h
  exact ⟨fun hag => absurd hag hn, fun hag => absurd hag hn⟩

/-- What the whole search comes to, from any place of it. -/
theorem run_iff (hdev : sadumpDefaultBlockSize < dev.length ∨ p.size = sadumpDefaultBlockSize)
    (hs : s.toHeaders = p.toHeaders) :
    (∃ fuel r, readSadumpHeader dev alloc fuel p.size s = some r ∧ Good r) ↔
      s.Safe ∧ (∀ n q, trail (Place.next dev alloc) p n = some q →
        q.Fits dev alloc ∧ q.Sound dev alloc) ∧
      ∃ n, trail (Place.next dev alloc) p n = none := by
  constructor
  · rintro ⟨fuel, r, hr, hg⟩
    induction fuel generalizing p s with
    | zero => cases hr
    | succ fuel ih =>
      have hb : p.size ≤ sadumpDefaultBlockSize := by
        by_contra hn
        exact not_good_of_large (by omega) (by omega) hr hg
      rcases leads_of_headers dev alloc hb hs with
        ⟨q, s', hq, hs', hrun, hsafe⟩ | ⟨r', hnone, hrun, hgood⟩
      · rw [hrun] at hr
        have hdev' := hdev.elim id (length_of_next hq)
        obtain ⟨hsafe', hall, hends⟩ := ih (.inl hdev') hs' hr
        have hp := hsafe.1 hsafe'
        rw [forall_trail_cons hq, trail_ends_cons hq]
        exact ⟨hp.2, ⟨⟨hp.1, sound_of_next hq⟩, hall⟩, hends⟩
      · rw [hrun] at hr
        obtain rfl := Option.some.inj hr
        obtain ⟨⟨hfits, hsafe⟩, hsound⟩ := hgood.1 hg
        rw [forall_trail_stop hnone]
        exact ⟨hsafe, ⟨hfits, hsound⟩, 1, trail_stop hnone 0⟩
  · rintro ⟨hsafe, hall, n, hn⟩
    induction n generalizing p s with
    | zero => cases hn
    | succ n ih =>
      have hp := hall 0 p rfl
      rcases leads_of_headers dev alloc hp.1.size hs with
        ⟨q, s', hq, hs', hrun, hsafe'⟩ | ⟨r', hnone, hrun, hgood⟩
      · have hdev' := hdev.elim id (length_of_next hq)
        have hall' := (forall_trail_cons hq).1 hall
        obtain ⟨fuel, r, hr, hg⟩ := ih (.inl hdev') hs' (hsafe'.2 ⟨hp.1, hsafe⟩) hall'.2
          (trail_cons hq n ▸ hn)
        exact ⟨fuel + 1, r, (hrun fuel).trans hr, hg⟩
      · exact ⟨1, r', hrun 0, hgood.2 ⟨⟨hp.1, hsafe⟩, hp.2⟩⟩

end run

/-! ## The search of a device -/

/-- The first place: the buffers as `malloc` leaves them, and the default size. -/
def Place.start (sph sh smh : Buffer) : Place :=
  ⟨⟨sph, sh, smh, sadumpDefaultBlockSize⟩, sadumpDefaultBlockSize⟩

/-- What the search for the headers is to do on a device: it returns, no read into a header buffer is
longer than the buffer, nothing is divided by zero, and a header that is kept was read, all of it, with
its own block size. -/
def Detects (dev : ByteFile) (alloc : Alloc) (sph sh smh : Buffer) : Prop :=
  ∃ fuel r, readSadumpHeader dev alloc fuel sadumpDefaultBlockSize
    ⟨(Place.start sph sh smh).toHeaders, 0, [], []⟩ = some r ∧ Good r

/-- The headers that announce one block size after the other: their blocks fit into the buffers, the
last one is sound, and none of them is found a second time. -/
structure Settles (dev : ByteFile) (alloc : Alloc) (p : Place) : Prop where
  fits : ∀ n q, trail (Place.next dev alloc) p n = some q → q.Fits dev alloc
  sound : ∀ n q, trail (Place.next dev alloc) p n = some q → q.Sound dev alloc
  distinct : ∀ i j, i < j → trail (Place.next dev alloc) p i ≠ none →
    trail (Place.next dev alloc) p i ≠ trail (Place.next dev alloc) p j

instance finite_uint8 : Finite UInt8 := .of_injective UInt8.toFin fun _ _ h => UInt8.toFin_inj.1 h

/-- The bytes of a buffer. -/
def Buffer.toVector (b : Buffer) : List.Vector UInt8 sadumpDefaultBlockSize := ⟨b.bytes, b.length_eq⟩

instance : Finite Buffer := by
  apply Finite.of_injective Buffer.toVector
  rintro ⟨b, hb⟩ ⟨c, hc⟩ h
  obtain rfl : b = c := congrArg Subtype.val h
  rfl

/-- The places with a block size that fits and a disk set header that can be announced with it. -/
def places : Set Place :=
  Set.range fun x : Buffer × Buffer × Buffer × Fin (2 ^ 45) × Fin (sadumpDefaultBlockSize + 1) =>
    ⟨⟨x.1, x.2.1, x.2.2.1, x.2.2.2.1⟩, x.2.2.2.2⟩

theorem places_finite : places.Finite := Set.finite_range _

theorem mem_places {p : Place} (hb : p.size ≤ sadumpDefaultBlockSize) (hs : p.sdhSize < 2 ^ 45) :
    p ∈ places :=
  ⟨⟨p.sph, p.sh, p.smh, ⟨p.sdhSize, hs⟩, ⟨p.size, Nat.lt_succ_of_le hb⟩⟩, rfl⟩

section device

variable {dev : ByteFile} {alloc : Alloc} {p q : Place}

/-- The room for the disk set header stays bounded. -/
theorem room_lt (hp : p.size ≤ sadumpDefaultBlockSize) (hs : p.sdhSize < 2 ^ 45)
    (h : p.next dev alloc = some q) : q.sdhSize < 2 ^ 45 := by
  rw [Place.next] at h
  split at h
  · obtain rfl := Option.some.inj h
    show p.room dev < 2 ^ 45
    unfold Place.room
    split
    · exact setSize_lt dev hp
    · exact hs
  · cases h

theorem trail_mem_places (hs : p.sdhSize < 2 ^ 45)
    (hfits : ∀ n q, trail (Place.next dev alloc) p n = some q → q.Fits dev alloc) (n : Nat) :
    ∀ q, trail (Place.next dev alloc) p n = some q → q ∈ places := by
  have hroom : ∀ q, trail (Place.next dev alloc) p n = some q → q.sdhSize < 2 ^ 45 := by
    induction n with
    | zero =>
      intro q hq
      exact Option.some.inj hq ▸ hs
    | succ n ih =>
      intro q hq
      obtain ⟨r, hr, hq⟩ := Option.bind_eq_some_iff.1 hq
      exact room_lt (hfits n r hr).size (ih r hr) hq
  exact fun q hq => mem_places (hfits n q hq).size (hroom q hq)

end device

/-- **When the search for the headers comes to a sound end.** -/
theorem detects_iff (dev : ByteFile) (alloc : Alloc) (sph sh smh : Buffer) :
    Detects dev alloc sph sh smh ↔ Settles dev alloc (Place.start sph sh smh) := by
  have hsafe : Detection.Safe ⟨(Place.start sph sh smh).toHeaders, 0, [], []⟩ := by
    simp [Detection.Safe]
  refine (run_iff (p := Place.start sph sh smh) (.inr rfl) rfl).trans ?_
  rw [and_iff_right hsafe]
  have hsize : (Place.start sph sh smh).sdhSize < 2 ^ 45 := by
    show 4096 < 2 ^ 45
    decide
  constructor
  · rintro ⟨hall, hends⟩
    have hmem := trail_mem_places hsize fun n q hq => (hall n q hq).1
    exact ⟨fun n q hq => (hall n q hq).1, fun n q hq => (hall n q hq).2,
      (trail_ends_iff places_finite hmem).1 hends⟩
  · intro h
    have hmem := trail_mem_places hsize h.fits
    exact ⟨fun n q hq => ⟨h.fits n q hq, h.sound n q hq⟩,
      (trail_ends_iff places_finite hmem).2 h.distinct⟩

/-! ## A block size that the buffers are too small for -/

/-- Magic numbers that fit together. -/
def magicOf : Nat → Nat
  | 0 => 0
  | i + 1 => (magicOf i + 7) * 11 % 2 ^ 32

def magicBytes (n : Nat) : List UInt8 := (List.range n).flatMap fun i => leBytes 4 (magicOf i)

/-- A single partition: a partition header and a dump header with the block size `b`. -/
def singleImage (b : Nat) : ByteFile :=
  leBytes 4 sadumpSignature1 ++ leBytes 4 sadumpSignature2 ++ List.replicate 144 0 ++ leBytes 4 0 ++
    List.replicate 12 0 ++ magicBytes dumpPartHeaderMagicnumSize ++
    (sadumpSignature ++ List.replicate 33 0 ++ leBytes 4 b ++ List.replicate 4052 0)

theorem magicOf_lt (i : Nat) : magicOf i < 2 ^ 32 := by
  cases i with
  | zero => decide
  | succ i => exact Nat.mod_lt _ (by decide)

theorem length_magicBytes (n : Nat) : (magicBytes n).length = 4 * n := by
  simp [magicBytes, Nat.mul_comm]

theorem length_singleImage (b : Nat) : (singleImage b).length = 8192 := by
  simp only [singleImage, List.length_append, length_leBytes, List.length_replicate,
    length_magicBytes]
  rfl

/-- The members of the headers of the image, at their places. -/
structure ImageOk (f : ByteFile) (b : Nat) : Prop where
  signature1 : Holds f 0 (leBytes 4 sadumpSignature1)
  signature2 : Holds f 4 (leBytes 4 sadumpSignature2)
  setDiskSet : Holds f 152 (leBytes 4 0)
  magic : Holds f 168 (magicBytes dumpPartHeaderMagicnumSize)
  signature : Holds f 4096 sadumpSignature
  blockSize : Holds f 4136 (leBytes 4 b)

theorem imageOk (b : Nat) : ImageOk (singleImage b) b := by
  obtain ⟨f, hf⟩ : ∃ f, f = singleImage b := ⟨_, rfl⟩
  have h : Holds f 0 (singleImage b) := hf ▸ List.take_length
  rw [← hf]
  unfold singleImage at h
  simp only [holds_append, List.length_append, length_leBytes, List.length_replicate,
    length_magicBytes] at h
  obtain ⟨⟨⟨⟨⟨⟨h1, h2⟩, -⟩, h3⟩, -⟩, h4⟩, ⟨⟨h5, -⟩, h6⟩, -⟩ := h
  exact ⟨h1, h2, h3, h4, h5, h6⟩

/-- Every magic number is where its index says. -/
theorem holds_magic {f : ByteFile} {base n : Nat} (h : Holds f base (magicBytes n)) {i : Nat}
    (hi : i < n) : Holds f (base + 4 * i) (leBytes 4 (magicOf i)) := by
  induction n with
  | zero => omega
  | succ n ih =>
    rw [magicBytes, List.range_succ, List.flatMap_append, holds_append] at h
    rcases Nat.lt_succ_iff_lt_or_eq.1 hi with hlt | rfl
    · exact ih h.1 hlt
    · have hlen : ((List.range i).flatMap fun i => leBytes 4 (magicOf i)).length = 4 * i :=
        length_magicBytes i
      have := h.2
      rw [hlen] at this
      simpa using this

section image

variable {f : ByteFile} {buf : Buffer} {o : Nat}

/-- A buffer that was read whole holds the bytes of the device. -/
theorem fill_bytes (h : o + sadumpDefaultBlockSize ≤ f.length) :
    (buf.fill (pread f o sadumpDefaultBlockSize)).bytes = pread f o sadumpDefaultBlockSize := by
  have hlen : (pread f o sadumpDefaultBlockSize).length = sadumpDefaultBlockSize := by
    rw [length_pread]
    omega
  have hbuf := buf.length_eq
  simp only [Buffer.fill]
  rw [List.take_of_length_le (by omega), List.drop_eq_nil_of_le (by omega), List.append_nil]

theorem fill_u32 (h : o + sadumpDefaultBlockSize ≤ f.length) {off v : Nat}
    (hoff : off + 4 ≤ sadumpDefaultBlockSize) (hv : v < 2 ^ 32)
    (hf : Holds f (o + off) (leBytes 4 v)) :
    (buf.fill (pread f o sadumpDefaultBlockSize)).u32 off = v := by
  unfold Holds at hf
  rw [length_leBytes] at hf
  rw [Buffer.u32, fill_bytes h, pread_pread f hoff, hf, leNat_leBytes_of_lt hv]

variable {b : Nat} (h : ImageOk f b) (hlen : f.length = 8192) (sph sh smh : Buffer)

include h hlen

theorem image_first :
    ((Place.start sph sh smh).first f).IsPartHeader ∧
      ((Place.start sph sh smh).first f).setDiskSet = 0 ∧
      verifyMagicNumber ((Place.start sph sh smh).first f) = true := by
  have hfit : 0 + sadumpDefaultBlockSize ≤ f.length := by
    rw [hlen]
    decide
  refine ⟨⟨?_, ?_⟩, ?_, ?_⟩
  · exact fill_u32 hfit (by decide) (by decide) h.signature1
  · exact fill_u32 hfit (by decide) (by decide) h.signature2
  · exact fill_u32 hfit (by decide) (by decide) h.setDiskSet
  · have hmagic : ∀ i < dumpPartHeaderMagicnumSize,
        ((Place.start sph sh smh).first f).magicnum i = magicOf i := by
      intro i hi
      have hoff : 168 + 4 * i + 4 ≤ sadumpDefaultBlockSize := by
        simp only [dumpPartHeaderMagicnumSize, sadumpDefaultBlockSize] at hi ⊢
        omega
      refine fill_u32 hfit hoff (magicOf_lt i) ?_
      rw [Nat.zero_add]
      exact holds_magic h.magic hi
    rw [verifyMagicNumber, List.all_eq_true]
    intro i hi
    obtain ⟨k, hk, rfl⟩ := List.mem_range'.1 hi
    have hk' : 1 + 1 * k < dumpPartHeaderMagicnumSize := by
      simp only [dumpPartHeaderMagicnumSize] at hk ⊢
      omega
    rw [beq_iff_eq, hmagic _ hk', hmagic _ (by omega), show 1 + 1 * k - 1 = k by omega,
      show 1 + 1 * k = k + 1 by omega]
    rfl

/-- The first search finds the block size of the dump header. -/
theorem next_image (alloc : Alloc) (hb : b < 2 ^ 32) (hne : b ≠ sadumpDefaultBlockSize) :
    ∃ q, (Place.start sph sh smh).next f alloc = some q ∧ q.size = b := by
  obtain ⟨hfirst, hset, hmagic⟩ := image_first h hlen sph sh smh
  have hpart : (Place.start sph sh smh).part f =
      (Place.start sph sh smh).first f := if_pos hfirst
  have hfirst' := hfirst
  have hformat : (Place.start sph sh smh).format f = .singlePartition := by
    rw [Place.format, if_pos hfirst, if_pos hset]
  have hoff : (Place.start sph sh smh).dumpOffset f = sadumpDefaultBlockSize := by
    rw [Place.dumpOffset, hformat]
    rfl
  have hwhole : ∀ o, o + sadumpDefaultBlockSize ≤ 8192 →
      Whole f o sadumpDefaultBlockSize := by
    intro o ho
    rw [Whole, length_pread, hlen]
    omega
  have hdump : (Place.start sph sh smh).dump f =
      sh.fill (pread f sadumpDefaultBlockSize sadumpDefaultBlockSize) := by
    rw [Place.dump, hoff]
    rfl
  have hfit : sadumpDefaultBlockSize + sadumpDefaultBlockSize ≤ f.length := by
    rw [hlen]
    decide
  have hsize : ((Place.start sph sh smh).dump f).blockSize = b := by
    rw [hdump]
    exact fill_u32 hfit (by decide) hb h.blockSize
  have hsig : ((Place.start sph sh smh).dump f).signature.take 7 = sadumpSignature := by
    rw [hdump, Buffer.signature, fill_bytes hfit, pread_pread _ (by decide), pread, List.take_take]
    exact h.signature
  have hw : Whole f ((Place.start sph sh smh).dumpOffset f)
      sadumpDefaultBlockSize := by
    rw [hoff]
    exact hwhole _ (by decide)
  have hlocated : (Place.start sph sh smh).Located f alloc := by
    rw [← hpart] at hfirst' hmagic
    refine ⟨⟨hwhole 0 (by decide), fun hn => absurd hfirst hn, hfirst', hmagic⟩, fun hf => ?_, hw, hsig,
      fun hf => ?_⟩
    · simp only [hformat, reduceCtorEq] at hf
    · simp only [hformat, reduceCtorEq] at hf
  have hne' : ((Place.start sph sh smh).dump f).blockSize ≠ sadumpDefaultBlockSize := by
    rwa [hsize]
  refine ⟨⟨(Place.start sph sh smh).found f,
    ((Place.start sph sh smh).dump f).blockSize⟩, ?_, hsize⟩
  rw [Place.next, if_pos]
  exact ⟨hlocated, hne'⟩

end image

/-- An image with blocks of 8192 bytes is read into buffers of 4096. -/
theorem not_detects_8192 : ¬ ∀ (dev : ByteFile) (alloc : Alloc) (sph sh smh : Buffer),
    Detects dev alloc sph sh smh := by
  intro h
  let junk : Buffer := ⟨List.replicate sadumpDefaultBlockSize 0, List.length_replicate⟩
  obtain ⟨q, hq, hsize⟩ := next_image (imageOk 8192) (length_singleImage 8192) junk junk junk
    (fun _ => true) (by decide) (by decide)
  obtain ⟨fuel, r, hr, hg⟩ := h (singleImage 8192) (fun _ => true) junk junk junk
  have hall := ((run_iff (p := Place.start junk junk junk) (.inr rfl) rfl).1 ⟨fuel, r, hr, hg⟩).2.1
  have hfits := (hall 1 q hq).1.size
  rw [hsize] at hfits
  exact absurd hfits (by decide)

end Sadump
