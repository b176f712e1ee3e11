import Makedumpfile.Output.Cache

/-!
# Two caches in one file

The writers fill two regions of the file at the same time, each through its cache: a table that
starts at `base` and must end at or before `off`, and data that starts at `off`. Each step of one
cache keeps the other's invariant, and the file below `base`.
-/

namespace Output

open Lib ByteFile

/-- The table holds `table`, the data `data`; each partly in the file and partly in its cache. -/
structure Pair (c : Opts) (base off : Nat) (table data : List UInt8) (cdTable cdData : CacheData)
    (o : Out) : Prop where
  tableInv : CacheInv base table cdTable o.file
  dataInv : CacheInv off data cdData o.file
  tableFd : cdTable.fd = .file
  dataFd : cdData.fd = .file
  noFail : NoFail c o
  room : base + table.length ≤ off

variable {c : Opts} {base off : Nat} {table data b chunk : List UInt8} {cdTable cdData cd : CacheData}
  {o o' : Out}

theorem CacheInv.le {s : List UInt8} {f : ByteFile} (h : CacheInv base s cd f) :
    base ≤ cd.offset := by
  obtain ⟨w, -, ho, -⟩ := h
  omega

theorem Pair.stepTable (h : Pair c base off table data cdTable cdData o)
    (hs : CacheStep c cdTable o b cd o' chunk) (hroom : base + (table ++ b).length ≤ off) :
    Pair c base off (table ++ b) data cd cdData o' ∧ Keeps base o.file o'.file := by
  have hl := h.tableInv.length
  have hle := h.tableInv.le
  have hb := congrArg List.length hs.buf
  simp only [List.length_append] at hb hroom
  have hdata : CacheInv off data cdData o'.file := by
    rw [hs.file]
    exact h.dataInv.pwrite (.inr (by omega))
  refine ⟨⟨h.tableInv.step hs, hdata, hs.fd.trans h.tableFd, h.dataFd, hs.noFail, by simpa using hroom⟩,
    ?_⟩
  rw [hs.file]
  exact keeps_pwrite _ _ hle

theorem Pair.stepData (h : Pair c base off table data cdTable cdData o)
    (hs : CacheStep c cdData o b cd o' chunk) :
    Pair c base off table (data ++ b) cdTable cd o' ∧ Keeps base o.file o'.file := by
  have hl := h.tableInv.length
  have hle := h.dataInv.le
  have hroom := h.room
  have htable : CacheInv base table cdTable o'.file := by
    rw [hs.file]
    exact h.tableInv.pwrite (.inl (by omega))
  refine ⟨⟨htable, h.dataInv.step hs, h.tableFd, hs.fd.trans h.dataFd, hs.noFail, h.room⟩, ?_⟩
  rw [hs.file]
  exact keeps_pwrite _ _ (by omega)

theorem Pair.of_file (h : Pair c base off table data cdTable cdData o) (hn : NoFail c o')
    (hf : o'.file = o.file) : Pair c base off table data cdTable cdData o' :=
  ⟨hf ▸ h.tableInv, hf ▸ h.dataInv, h.tableFd, h.dataFd, hn, h.room⟩

/-- A write below the table. -/
theorem Pair.pwrite {k : Nat} (h : Pair c base off table data cdTable cdData o) (hn : NoFail c o')
    (hf : o'.file = o.file.pwrite k b) (hk : k + b.length ≤ base) :
    Pair c base off table data cdTable cdData o' := by
  have hroom := h.room
  refine ⟨?_, ?_, h.tableFd, h.dataFd, hn, h.room⟩
  · rw [hf]
    exact h.tableInv.pwrite (.inr hk)
  · rw [hf]
    exact h.dataInv.pwrite (.inr (by omega))

end Output
