import Makedumpfile.Output.Pair

/-!
# Writes that may fail

A write to a regular file that fails has put a front of its bytes into the file (`writeBuffer_try`). A
cache whose write fails keeps all its bytes and its offset (`CacheTry`), so what it stands for is the
same as without the failure: the file up to the offset, followed by the buffer, is still the data in
call order (`CacheInv.try`), and the next write puts the same bytes at the same place again. Two caches
in one file do not disturb each other even so (`Areas`).
-/

namespace Output

open Lib ByteFile

/-- What was written is in the file. -/
theorem holds_pwrite_self (f : ByteFile) (off : Nat) (b : List UInt8) : Holds (f.pwrite off b) off b :=
  pread_pwrite_self f off b

theorem writeLoop_le : ∀ (sys : List WriteRet) (n : Nat), (writeLoop sys n).1 ≤ n
  | sys, 0 => by simp [writeLoop]
  | [], n + 1 => by simp [writeLoop]
  | .wrote k :: sys, n + 1 => by
    have ih := writeLoop_le sys (n + 1 - min (max k 1) (n + 1))
    simp only [writeLoop]
    omega
  | .eintr :: sys, n + 1 => by simpa [writeLoop] using writeLoop_le sys (n + 1)
  | .zero :: _, n + 1 => by simp [writeLoop]
  | .enospc :: _, n + 1 => by simp [writeLoop]
  | .eio :: _, n + 1 => by simp [writeLoop]

variable {c : Opts} {o o' : Out}

/-- A front of the bytes is accepted, and all of them when the result is TRUE. -/
theorem writeAndCheckSpace_try (hdry : c.flagDryRun = false) (fd : Fd) (buf : List UInt8) (o : Out) :
    ∃ n ≤ buf.length,
      (writeAndCheckSpace c fd buf o).2.file = (o.put fd (buf.take n)).file ∧
      ((writeAndCheckSpace c fd buf o).1 = true → n = buf.length) := by
  have hlimit : ∀ limit ≤ buf.length, (writeLoop o.sys limit).1 ≤ buf.length :=
    fun limit h => Nat.le_trans (writeLoop_le _ _) h
  unfold writeAndCheckSpace
  rw [hdry]
  cases hl : c.sizeLimit with
  | none => exact ⟨_, hlimit _ (Nat.le_refl _), rfl, fun h => by simpa using h⟩
  | some l =>
    dsimp only
    generalize (if fd = .stdout ∨ false = true then o.writeBytes else o.pos) = pos
    by_cases hover : pos + buf.length > l
    · rw [if_pos hover]
      exact ⟨_, hlimit _ (by omega), rfl, fun h => by simpa using h⟩
    · rw [if_neg hover]
      exact ⟨_, hlimit _ (Nat.le_refl _), rfl, fun h => by simpa using h⟩

theorem writeBuffer_try (hdry : c.flagDryRun = false) (off : Nat) (buf : List UInt8) (o : Out) :
    ∃ n ≤ buf.length,
      (writeBuffer c .file off buf o).2.file = o.file.pwrite off (buf.take n) ∧
      ((writeBuffer c .file off buf o).1 = true → n = buf.length) := by
  unfold writeBuffer
  rw [hdry]
  exact writeAndCheckSpace_try hdry .file buf { o with pos := off }

/-- **A write that returns TRUE** is `pwrite`, whatever the calls before it did. -/
theorem writeBuffer_true (hdry : c.flagDryRun = false) {off : Nat} {buf : List UInt8}
    (h : writeBuffer c .file off buf o = (true, o')) : o'.file = o.file.pwrite off buf := by
  obtain ⟨n, -, hf, hn⟩ := writeBuffer_try hdry off buf o
  rw [h] at hf hn
  rw [hf, hn rfl, List.take_length]

/-! ## One cache -/

variable {cd cd' : CacheData} {b : List UInt8}

/-- The operation took `b`: `kept` is written and gone from the buffer, `part` is written but still in
the buffer. -/
structure CacheTry (cd : CacheData) (o : Out) (b : List UInt8) (cd' : CacheData) (o' : Out)
    (kept part : List UInt8) : Prop where
  file : o'.file = o.file.pwrite cd.offset (kept ++ part)
  offset : cd'.offset = cd.offset + kept.length
  buf : kept ++ cd'.buf = cd.buf ++ b
  part : part <+: cd'.buf
  fd : cd'.fd = cd.fd
  size : cd'.cacheSize = cd.cacheSize

theorem CacheTry.length_le {kept part : List UInt8} (h : CacheTry cd o b cd' o' kept part) :
    (kept ++ part).length ≤ cd.buf.length + b.length := by
  have hlen := congrArg List.length h.buf
  have hpart := h.part.length_le
  simp only [List.length_append] at hlen ⊢
  omega

/-- **`write_cache`**, whatever its result is. -/
theorem writeCache_try (hdry : c.flagDryRun = false) (hfd : cd.fd = .file) (b : List UInt8) (o : Out) :
    ∃ kept part, CacheTry cd o b (writeCache c cd b o).2.1 (writeCache c cd b o).2.2 kept part := by
  unfold writeCache
  dsimp only
  split
  case isTrue => exact ⟨[], [], by simp, by simp, by simp, List.nil_prefix, rfl, rfl⟩
  case isFalse hlen =>
    obtain ⟨n, -, hf, hn⟩ :=
      writeBuffer_try hdry cd.offset ((cd.buf ++ b).take cd.cacheSize) o
    rw [hfd]
    cases hw : writeBuffer c .file cd.offset ((cd.buf ++ b).take cd.cacheSize) o with
    | mk ok o₁ =>
      rw [hw] at hf hn
      cases ok with
      | false =>
        refine ⟨[], ((cd.buf ++ b).take cd.cacheSize).take n, hf, rfl, rfl, ?_, hfd.symm, rfl⟩
        exact (List.take_prefix _ _).trans (List.take_prefix _ _)
      | true =>
        refine ⟨(cd.buf ++ b).take cd.cacheSize, [], ?_, ?_, List.take_append_drop _ _,
          List.nil_prefix, hfd.symm, rfl⟩
        · dsimp only at hf hn ⊢
          rw [List.append_nil, hf, hn rfl, List.take_length]
        · dsimp only
          rw [List.length_take]
          omega

/-- `write_cache_bufsz` that returns TRUE. -/
theorem writeCacheBufsz_true (hdry : c.flagDryRun = false) (hfd : cd.fd = .file)
    (h : writeCacheBufsz c cd o = (true, cd', o')) :
    cd'.buf = [] ∧ ∃ kept, CacheTry cd o [] cd' o' kept [] := by
  unfold writeCacheBufsz at h
  split at h
  case isTrue hb =>
    cases h
    exact ⟨hb, [], by simp, by simp, by simp, List.nil_prefix, rfl, rfl⟩
  case isFalse =>
    rw [hfd] at h
    cases hw : writeBuffer c .file cd.offset cd.buf o with
    | mk ok o₁ =>
      rw [hw] at h
      cases ok with
      | false => cases h
      | true =>
        cases h
        exact ⟨rfl, cd.buf, by rw [List.append_nil]; exact writeBuffer_true hdry hw, rfl, by simp,
          List.nil_prefix, hfd.symm, rfl⟩

/-- **The cache stands for the same data**, whether its write failed or not. -/
theorem CacheInv.try {base : Nat} {stream kept part : List UInt8}
    (h : CacheInv base stream cd o.file) (ht : CacheTry cd o b cd' o' kept part) :
    CacheInv base (stream ++ b) cd' o'.file := by
  obtain ⟨w, rfl, ho, hw⟩ := h
  refine ⟨w ++ kept, ?_, ?_, ?_⟩
  · rw [List.append_assoc, List.append_assoc, ht.buf]
  · rw [ht.offset, ho, List.length_append, Nat.add_assoc]
  · rw [ht.file, pwrite_append, ho]
    exact hw.pwrite_append.pwrite_of_disjoint (.inl (by rw [List.length_append]; omega))

/-! ## Two caches -/

/-- The table holds `table`, the data `data`; each partly in the file and partly in its cache, whatever
happened to the writes before. -/
structure Areas (base off : Nat) (table data : List UInt8) (cdTable cdData : CacheData)
    (f : ByteFile) : Prop where
  tableInv : CacheInv base table cdTable f
  dataInv : CacheInv off data cdData f
  tableFd : cdTable.fd = .file
  dataFd : cdData.fd = .file
  room : base + table.length ≤ off

variable {base off : Nat} {table data kept part : List UInt8} {cdTable cdData : CacheData}

theorem Areas.tryTable (h : Areas base off table data cdTable cdData o.file)
    (ht : CacheTry cdTable o b cd o' kept part) (hroom : base + (table ++ b).length ≤ off) :
    Areas base off (table ++ b) data cd cdData o'.file ∧ Keeps base o.file o'.file := by
  have hl := h.tableInv.length
  have hle := h.tableInv.le
  have hlen := ht.length_le
  have hdata : CacheInv off data cdData o'.file := by
    rw [ht.file]
    rw [List.length_append] at hroom
    exact h.dataInv.pwrite (.inr (by omega))
  refine ⟨⟨h.tableInv.try ht, hdata, ht.fd.trans h.tableFd, h.dataFd, hroom⟩, ?_⟩
  rw [ht.file]
  exact keeps_pwrite _ _ hle

theorem Areas.tryData (h : Areas base off table data cdTable cdData o.file)
    (ht : CacheTry cdData o b cd o' kept part) :
    Areas base off table (data ++ b) cdTable cd o'.file ∧ Keeps base o.file o'.file := by
  have hl := h.tableInv.length
  have hle := h.dataInv.le
  have hroom := h.room
  have htable : CacheInv base table cdTable o'.file := by
    rw [ht.file]
    exact h.tableInv.pwrite (.inl (by omega))
  refine ⟨⟨htable, h.dataInv.try ht, h.tableFd, ht.fd.trans h.dataFd, h.room⟩, ?_⟩
  rw [ht.file]
  exact keeps_pwrite _ _ (by omega)

/-- A write below the table. -/
theorem Areas.pwrite {k : Nat} {f : ByteFile} (h : Areas base off table data cdTable cdData f)
    (hk : k + b.length ≤ base) :
    Areas base off table data cdTable cdData (f.pwrite k b) := by
  have hroom := h.room
  exact ⟨h.tableInv.pwrite (.inr hk), h.dataInv.pwrite (.inr (by omega)), h.tableFd, h.dataFd, h.room⟩

end Output
