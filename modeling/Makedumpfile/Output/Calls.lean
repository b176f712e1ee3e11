import Makedumpfile.Output.Cache

/-!
# Runs of a write-behind cache

The callers of a `struct cache_data` give it pieces of any size. The buffer has room for `cache_size` and
one page, and a call writes at most `cache_size` bytes of it. So the data arrive in the file in call order
(`runCache_ok`), but the buffer is large enough exactly if every piece fits behind what is held
(`buffered_iff`); pieces of at most a page always do (`fits_of_le_page`).
-/

namespace Output

open Lib ByteFile

/-- A call on a `struct cache_data`. -/
inductive Call
  | write (b : List UInt8)
  | zero (size : Nat)
  | bufsz
  deriving Repr, DecidableEq

/-- What a call adds to the data. -/
def Call.bytes : Call → List UInt8
  | .write b => b
  | .zero size => List.replicate size 0
  | .bufsz => []

def cacheCall (c : Opts) (cd : CacheData) (o : Out) : Call → Bool × CacheData × Out
  | .write b => writeCache c cd b o
  | .zero size => writeCacheZero c cd size o
  | .bufsz => writeCacheBufsz c cd o

/-- The number of bytes in the buffer when the call has put its own there. `write_cache_zero` empties it
first. -/
def CacheData.peak (cd : CacheData) : Call → Nat
  | .write b => cd.buf.length + b.length
  | .zero size => size
  | .bufsz => cd.buf.length

def runCache (c : Opts) : List Call → CacheData → Out → CacheData × Out
  | [], cd, o => (cd, o)
  | call :: calls, cd, o =>
    let r := cacheCall c cd o call
    runCache c calls r.2.1 r.2.2

/-- The number of bytes held in every call of a run. -/
def peaks (c : Opts) : List Call → CacheData → Out → List Nat
  | [], _, _ => []
  | call :: calls, cd, o =>
    let r := cacheCall c cd o call
    cd.peak call :: peaks c calls r.2.1 r.2.2

/-- **The buffered writer is right for the calls**: whatever was in the file, the buffer is never too
small, and after a last flush the data are in the file in call order. -/
def Buffered (pageSize blockOrder offset : Nat) (calls : List Call) : Prop :=
  ∀ c o, NoFail c o →
    let cd := { prepareCacheData .file pageSize blockOrder with offset := offset }
    let r := runCache c (calls ++ [.bufsz]) cd o
    (∀ n ∈ peaks c (calls ++ [.bufsz]) cd o, n ≤ cd.cacheSize + pageSize) ∧
      Holds r.2.file offset (calls.flatMap Call.bytes) ∧
      r.1.offset = offset + (calls.flatMap Call.bytes).length

/-- Every piece fits behind the bytes that are held: a `write_cache` that fills `cache_size` leaves what is
behind it, the other calls leave nothing. -/
def Fits (cacheSize pageSize : Nat) : Nat → List Call → Prop
  | _, [] => True
  | held, .write b :: calls =>
    held + b.length ≤ cacheSize + pageSize ∧
      Fits cacheSize pageSize
        (if held + b.length < cacheSize then held + b.length else held + b.length - cacheSize) calls
  | _, .zero size :: calls => size ≤ cacheSize + pageSize ∧ Fits cacheSize pageSize 0 calls
  | _, .bufsz :: calls => Fits cacheSize pageSize 0 calls

/-! ## The data -/

variable {c : Opts} {cd cd' : CacheData} {o o' : Out} {call : Call}

theorem cacheCall_ok (hn : NoFail c o) (hfd : cd.fd = .file) (call : Call) :
    ∃ cd' o' chunk, cacheCall c cd o call = (true, cd', o') ∧
      CacheStep c cd o call.bytes cd' o' chunk ∧ (call = .bufsz → cd'.buf = []) := by
  cases call with
  | write b =>
    obtain ⟨cd', o', chunk, h, hs⟩ := writeCache_ok cd hn hfd b
    exact ⟨cd', o', chunk, h, hs, nofun⟩
  | zero size =>
    obtain ⟨cd', o', chunk, h, hs, -⟩ := writeCacheZero_ok cd hn hfd size
    exact ⟨cd', o', chunk, h, hs, nofun⟩
  | bufsz =>
    obtain ⟨cd', o', chunk, h, hs, hb⟩ := writeCacheBufsz_ok cd hn hfd
    exact ⟨cd', o', chunk, h, hs, fun _ => hb⟩

/-- **A run keeps the data**: what is in the file, followed by the buffer, is what was given. -/
theorem runCache_inv {base : Nat} {stream : List UInt8} (calls : List Call) (hn : NoFail c o)
    (hfd : cd.fd = .file) (h : CacheInv base stream cd o.file) :
    CacheInv base (stream ++ calls.flatMap Call.bytes) (runCache c calls cd o).1
        (runCache c calls cd o).2.file ∧
      NoFail c (runCache c calls cd o).2 ∧ (runCache c calls cd o).1.fd = .file := by
  induction calls generalizing cd o stream with
  | nil =>
    rw [List.flatMap_nil, List.append_nil]
    exact ⟨h, hn, hfd⟩
  | cons call calls ih =>
    obtain ⟨cd', o', chunk, hr, hs, -⟩ := cacheCall_ok hn hfd call
    have hih := ih hs.noFail (hs.fd.trans hfd) (h.step hs)
    rw [List.append_assoc] at hih
    rw [runCache, hr, List.flatMap_cons]
    exact hih

theorem runCache_append (calls calls' : List Call) (cd : CacheData) (o : Out) :
    runCache c (calls ++ calls') cd o =
      runCache c calls' (runCache c calls cd o).1 (runCache c calls cd o).2 := by
  induction calls generalizing cd o with
  | nil => rfl
  | cons call calls ih => exact ih _ _

/-- **After a last flush** the data are in the file. -/
theorem runCache_ok {calls : List Call} (hn : NoFail c o) (hfd : cd.fd = .file) (hb : cd.buf = []) :
    Holds (runCache c (calls ++ [.bufsz]) cd o).2.file cd.offset (calls.flatMap Call.bytes) ∧
      (runCache c (calls ++ [.bufsz]) cd o).1.offset =
        cd.offset + (calls.flatMap Call.bytes).length := by
  obtain ⟨hinv, hn', hfd'⟩ := runCache_inv calls hn hfd (cacheInv_init cd hb o.file)
  rw [List.nil_append] at hinv
  rw [runCache_append]
  obtain ⟨cd', o', chunk, hr, hs, hbuf⟩ := cacheCall_ok hn' hfd' .bufsz
  have hend := hinv.step hs
  rw [Call.bytes, List.append_nil] at hend
  rw [runCache, hr]
  exact hend.flushed (hbuf rfl)

/-! ## The buffer -/

/-- The number of bytes held after a call. -/
def heldAfter (cacheSize held : Nat) : Call → Nat
  | .write b => if held + b.length < cacheSize then held + b.length else held + b.length - cacheSize
  | .zero _ => 0
  | .bufsz => 0

theorem cacheCall_held (hn : NoFail c o) (hfd : cd.fd = .file) (call : Call) :
    (cacheCall c cd o call).2.1.buf.length = heldAfter cd.cacheSize cd.buf.length call := by
  cases call with
  | write b =>
    simp only [cacheCall, writeCache, heldAfter]
    split
    · rename_i hlt
      rw [List.length_append] at hlt
      rw [if_pos hlt, List.length_append]
    · rename_i hlt
      rw [List.length_append] at hlt
      obtain ⟨o', h, -⟩ := writeBuffer_file hn cd.offset ((cd.buf ++ b).take cd.cacheSize)
      rw [hfd, h, if_neg hlt]
      simp
  | zero size =>
    obtain ⟨cd', o', chunk, h, -, hb⟩ := writeCacheZero_ok cd hn hfd size
    rw [cacheCall, h, hb]
    rfl
  | bufsz =>
    obtain ⟨cd', o', chunk, h, -, hb⟩ := writeCacheBufsz_ok cd hn hfd
    rw [cacheCall, h, hb]
    rfl

/-- What a call holds at most, `held` bytes being in the buffer. -/
def peakOf (held : Nat) : Call → Nat
  | .write b => held + b.length
  | .zero size => size
  | .bufsz => held

theorem fits_cons {cacheSize pageSize held : Nat} {calls : List Call}
    (hh : held ≤ cacheSize + pageSize) :
    Fits cacheSize pageSize held (call :: calls) ↔
      peakOf held call ≤ cacheSize + pageSize ∧
        Fits cacheSize pageSize (heldAfter cacheSize held call) calls := by
  cases call with
  | write b => exact Iff.rfl
  | zero size => exact Iff.rfl
  | bufsz => exact ⟨fun h => ⟨hh, h⟩, fun h => h.2⟩

theorem heldAfter_le {cacheSize pageSize held : Nat}
    (h : peakOf held call ≤ cacheSize + pageSize) :
    heldAfter cacheSize held call ≤ cacheSize + pageSize := by
  cases call with
  | write b =>
    simp only [peakOf, heldAfter] at h ⊢
    split <;> omega
  | zero size => exact Nat.zero_le _
  | bufsz => exact Nat.zero_le _

/-- **The buffer is large enough** in every call of a run exactly if every piece fits. -/
theorem peaks_le_iff (pageSize : Nat) (calls : List Call) (hn : NoFail c o) (hfd : cd.fd = .file)
    (hh : cd.buf.length ≤ cd.cacheSize + pageSize) :
    (∀ n ∈ peaks c calls cd o, n ≤ cd.cacheSize + pageSize) ↔
      Fits cd.cacheSize pageSize cd.buf.length calls := by
  induction calls generalizing cd o with
  | nil => simp [peaks, Fits]
  | cons call calls ih =>
    obtain ⟨cd', o', chunk, hr, hs, -⟩ := cacheCall_ok hn hfd call
    have hheld := cacheCall_held hn hfd call
    have hpeak : cd.peak call = peakOf cd.buf.length call := by cases call <;> rfl
    rw [hr] at hheld
    rw [peaks, hr, List.forall_mem_cons, fits_cons hh, hpeak]
    refine and_congr_right fun hp => ?_
    have hih := @ih cd' o' hs.noFail (hs.fd.trans hfd) (by
      rw [hheld, hs.size]
      exact heldAfter_le hp)
    rw [hs.size, hheld] at hih
    exact hih

theorem fits_append_bufsz {cacheSize pageSize : Nat} (calls : List Call) (held : Nat) :
    Fits cacheSize pageSize held (calls ++ [.bufsz]) ↔ Fits cacheSize pageSize held calls := by
  induction calls generalizing held with
  | nil => exact Iff.rfl
  | cons call calls ih =>
    cases call with
    | write b => exact and_congr_right fun _ => ih _
    | zero size => exact and_congr_right fun _ => ih _
    | bufsz => exact ih _

/-- A first piece that is larger than the buffer. -/
theorem not_buffered_of_length {pageSize blockOrder : Nat} {b : List UInt8}
    (h : pageSize <<< blockOrder + pageSize < b.length) (offset : Nat) (calls : List Call) :
    ¬ Buffered pageSize blockOrder offset (.write b :: calls) := by
  intro hbuf
  have hn : NoFail {} ({} : Out) := ⟨rfl, rfl, fun r hr => by cases hr⟩
  have hpeak : b.length ≤ pageSize <<< blockOrder + pageSize := by
    refine (hbuf {} {} hn).1 b.length ?_
    rw [List.cons_append, peaks]
    simp [CacheData.peak, prepareCacheData]
  omega

/-- **Pieces of at most a page always fit**: less than `cache_size` is held between two calls. -/
theorem fits_of_le_page {cacheSize pageSize held : Nat} {calls : List Call}
    (hpage : pageSize ≤ cacheSize) (hheld : held < cacheSize)
    (hcalls : ∀ call ∈ calls, call.bytes.length ≤ pageSize) :
    Fits cacheSize pageSize held calls := by
  induction calls generalizing held with
  | nil => trivial
  | cons call calls ih =>
    obtain ⟨hcall, hrest⟩ := List.forall_mem_cons.mp hcalls
    cases call with
    | write b =>
      have hlen : b.length ≤ pageSize := hcall
      refine ⟨by omega, ih ?_ hrest⟩
      split <;> omega
    | zero size =>
      have hlen : size ≤ pageSize := (List.length_replicate (n := size) (a := (0 : UInt8))) ▸ hcall
      exact ⟨by omega, ih (by omega) hrest⟩
    | bufsz => exact ih (by omega) hrest

end Output
