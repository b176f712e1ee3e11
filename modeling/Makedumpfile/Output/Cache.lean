import Makedumpfile.Output.Write

/-!
# Write-behind caches

`struct cache_data`: bytes are collected and written in pieces of `cache_size` at the running
offset. A successful operation writes the front of the collected bytes at the offset and keeps the
rest (`CacheStep`); so the file from the first offset on, followed by the buffer, is the
concatenation of all the data in call order (`CacheInv`, kept by `CacheInv.step`), whatever happens
elsewhere in the file (`CacheInv.pwrite`).
-/

namespace Output

open Lib ByteFile

/-- `struct cache_data`; `buf` holds the first `buf_size` bytes of the source's buffer. -/
structure CacheData where
  fd : Fd := .file
  cacheSize : Nat
  buf : List UInt8 := []
  offset : Nat := 0
  deriving Repr, DecidableEq

def prepareCacheData (fd : Fd) (pageSize blockOrder : Nat) : CacheData :=
  { fd, cacheSize := pageSize <<< blockOrder }

def writeCache (c : Opts) (cd : CacheData) (b : List UInt8) (o : Out) : Bool × CacheData × Out :=
  let cd := { cd with buf := cd.buf ++ b }
  if cd.buf.length < cd.cacheSize then (true, cd, o)
  else
    match writeBuffer c cd.fd cd.offset (cd.buf.take cd.cacheSize) o with
    | (false, o) => (false, cd, o)
    | (true, o) =>
      (true, { cd with buf := cd.buf.drop cd.cacheSize, offset := cd.offset + cd.cacheSize }, o)

def writeCacheBufsz (c : Opts) (cd : CacheData) (o : Out) : Bool × CacheData × Out :=
  if cd.buf = [] then (true, cd, o)
  else
    match writeBuffer c cd.fd cd.offset cd.buf o with
    | (false, o) => (false, cd, o)
    | (true, o) => (true, { cd with buf := [], offset := cd.offset + cd.buf.length }, o)

def writeCacheZero (c : Opts) (cd : CacheData) (size : Nat) (o : Out) : Bool × CacheData × Out :=
  match writeCacheBufsz c cd o with
  | (false, r) => (false, r)
  | (true, cd, o) => writeCacheBufsz c { cd with buf := cd.buf ++ List.replicate size 0 } o

/-! ## One operation -/

/-- The operation took `b`: it wrote `chunk` at the offset and holds the rest. -/
structure CacheStep (c : Opts) (cd : CacheData) (o : Out) (b : List UInt8) (cd' : CacheData)
    (o' : Out) (chunk : List UInt8) : Prop where
  file : o'.file = o.file.pwrite cd.offset chunk
  offset : cd'.offset = cd.offset + chunk.length
  buf : chunk ++ cd'.buf = cd.buf ++ b
  fd : cd'.fd = cd.fd
  size : cd'.cacheSize = cd.cacheSize
  noFail : NoFail c o'
  nospace : o'.flagNospace = o.flagNospace

variable {c : Opts} (cd : CacheData) {cd' : CacheData} {o o' : Out} {b : List UInt8}

theorem writeCache_ok (hn : NoFail c o) (hfd : cd.fd = .file) (b : List UInt8) :
    ∃ cd' o' chunk, writeCache c cd b o = (true, cd', o') ∧ CacheStep c cd o b cd' o' chunk := by
  unfold writeCache
  dsimp only
  split
  · exact ⟨_, o, [], rfl, ⟨by simp, by simp, by simp, rfl, rfl, hn, rfl⟩⟩
  · rename_i hlen
    obtain ⟨o', h, hf, hs, hn'⟩ :=
      writeBuffer_file hn cd.offset ((cd.buf ++ b).take cd.cacheSize)
    rw [hfd, h]
    refine ⟨_, o', _, rfl, ⟨hf, ?_, List.take_append_drop _ _, hfd.symm, rfl, hn', hs⟩⟩
    rw [List.length_take]
    show cd.offset + cd.cacheSize = _
    omega

theorem writeCacheBufsz_ok (hn : NoFail c o) (hfd : cd.fd = .file) :
    ∃ cd' o' chunk, writeCacheBufsz c cd o = (true, cd', o') ∧
      CacheStep c cd o [] cd' o' chunk ∧ cd'.buf = [] := by
  unfold writeCacheBufsz
  split
  · rename_i hb
    exact ⟨cd, o, [], rfl, ⟨by simp, by simp, by simp, rfl, rfl, hn, rfl⟩, hb⟩
  · obtain ⟨o', h, hf, hs, hn'⟩ := writeBuffer_file hn cd.offset cd.buf
    rw [hfd, h]
    exact ⟨_, o', cd.buf, rfl, ⟨hf, rfl, rfl, hfd.symm, rfl, hn', hs⟩, rfl⟩

theorem writeCacheZero_ok (hn : NoFail c o) (hfd : cd.fd = .file) (size : Nat) :
    ∃ cd' o' chunk, writeCacheZero c cd size o = (true, cd', o') ∧
      CacheStep c cd o (List.replicate size 0) cd' o' chunk ∧ cd'.buf = [] := by
  obtain ⟨cd1, o1, ch1, h1, s1, hb1⟩ := writeCacheBufsz_ok cd hn hfd
  obtain ⟨cd2, o2, ch2, h2, s2, hb2⟩ :=
    writeCacheBufsz_ok { cd1 with buf := cd1.buf ++ List.replicate size 0 } s1.noFail
      (s1.fd.trans hfd)
  unfold writeCacheZero
  rw [h1]
  refine ⟨cd2, o2, ch1 ++ ch2, h2, ⟨?_, ?_, ?_, s2.fd.trans s1.fd, s2.size.trans s1.size,
    s2.noFail, s2.nospace.trans s1.nospace⟩, hb2⟩
  · rw [s2.file, s1.file, s1.offset, pwrite_append]
  · rw [s2.offset, s1.offset, List.length_append]
    omega
  · have e1 := s1.buf
    have e2 := s2.buf
    simp only [hb1, hb2, List.append_nil, List.nil_append] at e1 e2 ⊢
    rw [e1, e2]

/-! ## The end of the data -/

/-- The offset of the next byte given to the cache. -/
def CacheData.pos (cd : CacheData) : Nat := cd.offset + cd.buf.length

variable {cd}

theorem writeCache_pos (h : writeCache c cd b o = (true, cd', o')) :
    cd'.pos = cd.pos + b.length ∧ cd'.fd = cd.fd := by
  unfold writeCache at h
  dsimp only at h
  split at h
  · cases h
    refine ⟨?_, rfl⟩
    simp only [CacheData.pos, List.length_append]
    omega
  · rename_i hlen
    split at h
    · cases h
    · cases h
      refine ⟨?_, rfl⟩
      simp only [CacheData.pos, List.length_drop, List.length_append] at hlen ⊢
      omega

theorem writeCacheBufsz_pos (h : writeCacheBufsz c cd o = (true, cd', o')) :
    cd'.pos = cd.pos ∧ cd'.buf = [] ∧ cd'.fd = cd.fd := by
  unfold writeCacheBufsz at h
  split at h
  · rename_i hb
    cases h
    exact ⟨rfl, hb, rfl⟩
  · split at h
    · cases h
    · cases h
      exact ⟨by simp [CacheData.pos], rfl, rfl⟩

/-- The zeros count also when their write fails. -/
theorem writeCacheZero_pos (hb : cd.buf = []) (size : Nat) :
    (writeCacheZero c cd size o).2.1.pos = cd.pos + size := by
  have hz : writeCacheBufsz c cd o = (true, cd, o) := by
    rw [writeCacheBufsz, if_pos hb]
  rw [writeCacheZero, hz]
  dsimp only
  unfold writeCacheBufsz
  split
  · simp [CacheData.pos, Nat.add_assoc]
  · split <;> simp [CacheData.pos, hb]

/-! ## Runs -/

variable (cd)

/-- The file from `base` up to the offset, followed by the buffer, is `stream`. -/
def CacheInv (base : Nat) (stream : List UInt8) (cd : CacheData) (f : ByteFile) : Prop :=
  ∃ w, stream = w ++ cd.buf ∧ cd.offset = base + w.length ∧ Holds f base w

theorem cacheInv_init (h : cd.buf = []) (f : ByteFile) :
    CacheInv cd.offset [] cd f :=
  ⟨[], by simp [h], rfl, holds_nil _ _⟩

variable {cd}

theorem CacheInv.step {base : Nat} {stream chunk : List UInt8} (h : CacheInv base stream cd o.file)
    (hs : CacheStep c cd o b cd' o' chunk) : CacheInv base (stream ++ b) cd' o'.file := by
  obtain ⟨w, rfl, ho, hw⟩ := h
  refine ⟨w ++ chunk, ?_, ?_, ?_⟩
  · rw [List.append_assoc, List.append_assoc, hs.buf]
  · rw [hs.offset, ho, List.length_append]
    omega
  · rw [hs.file, ho]
    exact hw.pwrite_append

/-- A write behind the offset, or before the region, does not touch it. -/
theorem CacheInv.pwrite {base off : Nat} {stream chunk : List UInt8} {f : ByteFile}
    (h : CacheInv base stream cd f) (hd : cd.offset ≤ off ∨ off + chunk.length ≤ base) :
    CacheInv base stream cd (f.pwrite off chunk) := by
  obtain ⟨w, rfl, ho, hw⟩ := h
  exact ⟨w, rfl, ho, hw.pwrite_of_disjoint (by omega)⟩

/-- **After the last flush** the region of the file is the stream. -/
theorem CacheInv.flushed {base : Nat} {stream : List UInt8} {f : ByteFile}
    (h : CacheInv base stream cd f) (hb : cd.buf = []) :
    Holds f base stream ∧ cd.offset = base + stream.length := by
  obtain ⟨w, rfl, ho, hw⟩ := h
  rw [hb, List.append_nil]
  exact ⟨hw, ho⟩

theorem CacheInv.length {base : Nat} {stream : List UInt8} {f : ByteFile}
    (h : CacheInv base stream cd f) : cd.offset + cd.buf.length = base + stream.length := by
  obtain ⟨w, rfl, ho, -⟩ := h
  rw [List.length_append]
  omega

end Output
